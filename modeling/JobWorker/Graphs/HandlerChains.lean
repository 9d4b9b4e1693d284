import JobWorker.Graphs.Order

/-!
# Chains that handle errors

A chain that is attached with on_error hands `run_on_failure` to all its steps
(`job_worker/delay.py:316–317`). But the cascades read the flag relative to the parent of a
row (`models/queue_job.py:743–803`), and the parent of a later step is the step before, not
the source of the handler.
-/

namespace JobWorker

open Delaying World

/-- An on_error row `j` whose only prerequisite is another on_error row `q`; it waits as long
as `q` has not come to an end, and no longer than until `q` is done or has failed. -/
structure HandlerPair (s : Store) (q j : JobId) : Prop where
  row : ∃ r, s.get? j = some r ∧ r.parentId = some q ∧ r.dependencies = [] ∧
    r.runOnFailure = true ∧
    (r.isWaiting = true → s.stateOf q ≠ some .done ∧ s.stateOf q ≠ some .failed)
  before : ∃ v, s.get? q = some v ∧ v.runOnFailure = true ∧
    (v.state.isTerminal = false → s.stateOf j = some .waiting)

/-- One event moves two consecutive steps of a chain as a chain does: the later one becomes
pending when the earlier one completes as done, and fails when it fails. -/
structure StepLaw (q j : JobId) (s s' : Store) : Prop where
  onlyAfterDone : s.stateOf j = some .waiting → s'.stateOf j = some .pending →
    s'.stateOf q = some .done
  released : s.stateOf q ≠ some .done → s'.stateOf q = some .done → s'.stateOf j = some .pending
  failed : s.stateOf q ≠ some .failed → s'.stateOf q = some .failed → s'.stateOf j = some .failed

section Step

variable {w : World} {e : Event} {s' : Store} {q j : JobId} {r : Job}

/-- What an event makes of a waiting on_error row with the parent `q`. -/
theorem onError_cases (hg : w.ByWorkers e) (h : w.Commits e s') (hr : w.store.get? j = some r)
    (hw : r.isWaiting = true) (hparent : r.parentId = some q) (hdeps : r.dependencies = [])
    (hon : r.runOnFailure = true) :
    (s'.stateOf j = some .pending ∧ s'.stateOf q = some .failed) ∨
      (s'.stateOf j = some .cancelled ∧
        (s'.stateOf q = some .done ∨ s'.stateOf q = some .cancelled)) ∨
      s'.stateOf j = some .waiting ∧ q ∉ completes e ∧
        (w.store.stateOf q = some .started → s'.stateOf q ≠ some .failed) := by
  have hwaits {p : JobId} (hp : r.WaitsOn p) : p = q := by
    rcases hp with hp | hp
    · exact Option.some.inj (hp.symm.trans hparent)
    · rw [Job.dependsOn_iff, hdeps] at hp
      cases hp
  cases h.waitingEffect hg hr hw with
  | released hoff | failed hoff =>
    rw [hon] at hoff
    cases hoff
  | @promoted p _ hp hf hs =>
    rw [hwaits hp] at hf
    exact .inl ⟨hs, hf⟩
  | passedOver _ hsettled hs =>
    obtain ⟨k, hk, hsettled⟩ := hsettled
    have hmem : k ∈ completes e := by rw [hk]; exact List.mem_singleton_self k
    have hdone := (done_of_mem_completes hg h hmem).2.2
    rcases hsettled with hp | ⟨hlisted, _⟩
    · rw [Option.some.inj (hp.symm.trans hparent)] at hdone
      exact .inr (.inl ⟨hs, .inl hdone⟩)
    · rw [Job.listed, List.countP_singleton] at hlisted
      simp [Job.dependsOn, hdeps] at hlisted
  | @cancelled p hp hc hs =>
    rw [Option.some.inj (hp.symm.trans hparent)] at hc
    exact .inr (.inl ⟨hs, .inr hc⟩)
  | waits hr' hw' _ _ hstarted hcompletes =>
    refine .inr (.inr ⟨?_, hcompletes q hparent, hstarted q (.inl hparent)⟩)
    rw [Store.stateOf_of_get? hr', Job.isWaiting_iff.mp hw']

/-- A row whose state changes had not come to an end. -/
theorem not_terminal_of_changed (hg : w.ByWorkers e) (h : w.Commits e s')
    (hr : w.store.get? q = some r) {state : JobState} (hs : w.store.stateOf q ≠ some state)
    (hs' : s'.stateOf q = some state) : r.state.isTerminal = false := by
  by_contra ht
  have hsame := state_of_terminal hg h hr (Bool.eq_true_of_not_eq_false ht)
  rw [hsame] at hs'
  rw [Store.stateOf_of_get? hr] at hs
  exact hs hs'

/-- When the row before completes, the one behind it is cancelled. -/
theorem HandlerPair.cancelled (hf : HandlerPair w.store q j) (hg : w.ByWorkers e)
    (h : w.Commits e s') (hs : w.store.stateOf q ≠ some .done) (hd : s'.stateOf q = some .done) :
    s'.stateOf j = some .cancelled := by
  obtain ⟨r, hr, hparent, hdeps, hon, _⟩ := hf.row
  obtain ⟨v, hv, _, hwait⟩ := hf.before
  have hw := hwait (not_terminal_of_changed hg h hv hs hd)
  rw [Store.stateOf_of_get? hr, Option.some.injEq] at hw
  rcases onError_cases hg h hr (Job.isWaiting_iff.mpr hw) hparent hdeps hon with
    ⟨_, hq⟩ | ⟨hj, _⟩ | ⟨_, hq, _⟩
  · cases hd.symm.trans hq
  · exact hj
  · exact absurd (mem_completes_of_done hg h hs hd) hq

/-- A row that fails, and that waits for a failure itself, was started. -/
theorem HandlerPair.started (hf : HandlerPair w.store q j) (hg : w.ByWorkers e)
    (h : w.Commits e s') (hs : w.store.stateOf q ≠ some .failed)
    (hd : s'.stateOf q = some .failed) : w.store.stateOf q = some .started := by
  obtain ⟨v, hv, hon, _⟩ := hf.before
  rw [Store.stateOf_of_get? hv] at hs ⊢
  have hstarted := (started_of_failed hg h hv (fun hn ↦ hs (congrArg some hn)) hd).resolve_right
    (by simp [hon])
  rw [hstarted]

/-- When the row before fails, the one behind it is started. -/
theorem HandlerPair.promoted (hf : HandlerPair w.store q j) (hg : w.ByWorkers e)
    (h : w.Commits e s') (hs : w.store.stateOf q ≠ some .failed)
    (hd : s'.stateOf q = some .failed) : s'.stateOf j = some .pending := by
  have hstarted := hf.started hg h hs hd
  obtain ⟨r, hr, hparent, hdeps, hon, _⟩ := hf.row
  obtain ⟨v, hv, _, hwait⟩ := hf.before
  have hw := hwait (not_terminal_of_changed hg h hv hs hd)
  rw [Store.stateOf_of_get? hr, Option.some.injEq] at hw
  rcases onError_cases hg h hr (Job.isWaiting_iff.mpr hw) hparent hdeps hon with
    ⟨hj, _⟩ | ⟨_, hq | hq⟩ | ⟨_, _, hq⟩
  · exact hj
  · cases hd.symm.trans hq
  · cases hd.symm.trans hq
  · exact absurd hd (hq hstarted)

/-- One event keeps the rows in that relation. -/
theorem HandlerPair.commits (hf : HandlerPair w.store q j) (hg : w.ByWorkers e)
    (h : w.Commits e s') : HandlerPair s' q j := by
  obtain ⟨r, hr, hparent, hdeps, hon, hsettled⟩ := hf.row
  obtain ⟨v, hv, hvon, hwait⟩ := hf.before
  obtain ⟨r', hr', hwire, hback⟩ := h.transaction.row hr
  obtain ⟨v', hv', hvwire, _⟩ := h.transaction.row hv
  have hcases (hw : r.isWaiting = true) := onError_cases hg h hr hw hparent hdeps hon
  have hdeps' : r'.dependencies = [] :=
    (congrArg (fun x : Wiring ↦ x.dependencyJobIds.getD []) hwire).trans hdeps
  constructor
  case row =>
    refine ⟨r', hr', (Job.parentId_of_wiring hwire).trans hparent, hdeps',
      (Job.runOnFailure_of_wiring hwire).trans hon, fun hw' ↦ ?_⟩
    obtain ⟨hd, hn⟩ := hsettled (hback hw')
    have hs' := Store.stateOf_of_get? hr'
    rw [Job.isWaiting_iff.mp hw'] at hs'
    rcases hcases (hback hw') with ⟨hj, _⟩ | ⟨hj, _⟩ | ⟨_, hq, hq'⟩
    · cases hs'.symm.trans hj
    · cases hs'.symm.trans hj
    · exact ⟨fun hdone ↦ hq (mem_completes_of_done hg h hd hdone),
        fun hfailed ↦ hq' (hf.started hg h hn hfailed) hfailed⟩
  case before =>
    refine ⟨v', hv', (Job.runOnFailure_of_wiring hvwire).trans hvon, fun ht' ↦ ?_⟩
    have hterminal {state : JobState} (hq : s'.stateOf q = some state) :
        state.isTerminal = false := by
      rw [Store.stateOf_of_get? hv', Option.some.injEq] at hq
      rwa [← hq]
    have ht : v.state.isTerminal = false := by
      by_contra ht
      exact ht (hterminal (state_of_terminal hg h hv (Bool.eq_true_of_not_eq_false ht)))
    have hw := hwait ht
    rw [Store.stateOf_of_get? hr, Option.some.injEq] at hw
    rcases hcases (Job.isWaiting_iff.mpr hw) with ⟨_, hq⟩ | ⟨_, hq | hq⟩ | ⟨hj, _⟩
    · cases hterminal hq
    · cases hterminal hq
    · cases hterminal hq
    · exact hj

/-- Through every run the rows stay in that relation. -/
theorem HandlerPair.run {w' : World} (hf : HandlerPair w.store q j) (h : WorkerRun w w') :
    HandlerPair w'.store q j := by
  induction h with
  | refl => exact hf
  | step _ hg hs ih =>
    obtain ⟨s', hc, rfl⟩ := hs
    exact ih.commits hg hc

/-- An event moves the two rows as the steps of a chain exactly when it does not record the
outcome of the first. -/
theorem HandlerPair.stepLaw (hf : HandlerPair w.store q j) (hg : w.ByWorkers e)
    (h : w.Commits e s') : StepLaw q j w.store s' ↔ ¬ w.RecordsOutcome e q := by
  constructor
  · intro hlaw ho
    obtain ⟨hs, hd | hd⟩ := state_of_recordsOutcome hg h ho
    · have hne : w.store.stateOf q ≠ some .done := by rw [hs]; exact nofun
      cases (hlaw.released hne hd).symm.trans (hf.cancelled hg h hne hd)
    · have hne : w.store.stateOf q ≠ some .failed := by rw [hs]; exact nofun
      cases (hlaw.failed hne hd).symm.trans (hf.promoted hg h hne hd)
  · intro ho
    have hfails (hs : w.store.stateOf q ≠ some .failed) : s'.stateOf q ≠ some .failed := fun hd ↦
      ho (recordsOutcome_of_failed hg h (hf.started hg h hs hd) hd)
    refine ⟨fun hw hp ↦ ?_, fun hs hd ↦ absurd (recordsOutcome_of_done hg h hs hd) ho,
      fun hs hd ↦ absurd hd (hfails hs)⟩
    obtain ⟨r, hr, hparent, hdeps, hon, hsettled⟩ := hf.row
    rw [Store.stateOf_of_get? hr, Option.some.injEq] at hw
    have hw := Job.isWaiting_iff.mpr hw
    rcases onError_cases hg h hr hw hparent hdeps hon with ⟨_, hq⟩ | ⟨hj, _⟩ | ⟨hj, _⟩
    · exact absurd hq (hfails (hsettled hw).2)
    · cases hp.symm.trans hj
    · cases hp.symm.trans hj

end Step

/-! ### The steps of a handler -/

/-- Every step of the run moves the jobs of the chain `delayables` as a chain does. -/
def HandlerLaw (st' : Session) (delayables : List Ref) (steps : List (World × Event × World)) :
    Prop :=
  ∀ w₁ e w₂, (w₁, e, w₂) ∈ steps → ∀ i x y q j, delayables[i]? = some x →
    delayables[i + 1]? = some y → st'.jobOf x = some q → st'.jobOf y = some j →
    StepLaw q j w₁.store w₂.store

/-- No step of the run records the outcome of a job of the chain but the last. -/
def NoOutcomeBeforeLast (st' : Session) (delayables : List Ref)
    (steps : List (World × Event × World)) : Prop :=
  ∀ w₁ e w₂, (w₁, e, w₂) ∈ steps → ∀ i x y q j, delayables[i]? = some x →
    delayables[i + 1]? = some y → st'.jobOf x = some q → st'.jobOf y = some j →
    ¬ w₁.RecordsOutcome e q

section Handler

variable {env : DelayEnv} {st st' : Session} {root p c x y : Ref} {refs delayables : List Ref}
  {w w' : World} {steps : List (World × Event × World)} {q j : JobId} {i : Nat}

/-- All steps of a chain have its disposition. -/
theorem DelayedTree.runOnFailure_step (h : DelayedTree env st root refs st') (hc : c ∈ refs)
    (hcls : (st'.heap c).cls = .chain delayables) (hx : delayables[i]? = some x) :
    (st'.heap x).runOnFailure = (st'.heap c).runOnFailure := by
  have hcomp := h.compiles.1
  obtain ⟨u, hhead, hsucc⟩ := hcomp.steps hc hcls
  cases i with
  | zero => exact congrArg Context.runOnFailure (hhead x (List.head?_eq_getElem? ▸ hx))
  | succ i =>
    have hlt : i < delayables.length := Nat.lt_of_succ_lt (List.getElem?_eq_some_iff.mp hx).1
    obtain ⟨v, hv⟩ := h.member_job hc (.inr hcls) (List.getElem_mem hlt)
    exact congrArg Context.runOnFailure
      (hsucc i _ x v (List.getElem?_eq_getElem hlt) hx hv)

/-- Consecutive steps of a handler chain are wired to each other. -/
theorem DelayedTree.handlerPair (h : DelayedTree env st root refs st') (hc : c ∈ refs)
    (hcls : (st'.heap c).cls = .chain delayables) (hon : (st'.heap c).runOnFailure = true)
    (hx : delayables[i]? = some x) (hy : delayables[i + 1]? = some y) (hq : st'.jobOf x = some q)
    (hj : st'.jobOf y = some j) : HandlerPair st'.store q j := by
  have hcomp := h.compiles.1
  obtain ⟨u, _, hsucc⟩ := hcomp.steps hc hcls
  have hxr := hcomp.mem_of_comprises hc (.inr hcls) (List.mem_of_getElem? hx)
  have hyr := hcomp.mem_of_comprises hc (.inr hcls) (List.mem_of_getElem? hy)
  have hpos : q ≠ 0 := (hcomp.fresh x hxr q hq).1.ne'
  have hcontext := hsucc i x y q hx hy hq
  obtain ⟨j', r, hj', hr, hcols⟩ := hcomp.job hyr (isDelayable_of_jobOf hj)
  obtain rfl := Option.some.inj (hj.symm.trans hj')
  obtain ⟨q', v, hq', hv, hvcols⟩ := hcomp.job hxr (isDelayable_of_jobOf hq)
  obtain rfl := Option.some.inj (hq.symm.trans hq')
  rw [hcontext, hon] at hcols
  have hwaits : r.state = .waiting := by
    rw [hcols.state, if_pos (.inl (by simpa using hpos))]
  have hactive : v.state ≠ .done ∧ v.state ≠ .failed := by
    rw [hvcols.state]
    split <;> exact ⟨nofun, nofun⟩
  constructor
  case row =>
    refine ⟨r, hr, ?_, ?_, hcols.runOnFailure, fun _ ↦ ?_⟩
    · rw [hcols.parentId, Option.filter_some, if_pos (by simpa using hpos)]
    · rw [Job.dependencies, hcols.dependencyJobIds]
      rfl
    · rw [Store.stateOf_of_get? hv]
      exact ⟨fun hd ↦ hactive.1 (Option.some.inj hd), fun hf ↦ hactive.2 (Option.some.inj hf)⟩
  case before =>
    refine ⟨v, hv, ?_, fun _ ↦ by rw [Store.stateOf_of_get? hr, hwaits]⟩
    exact hvcols.runOnFailure.trans ((h.runOnFailure_step hc hcls hx).trans hon)

/-- In a run behind the delay of a tree, a chain that is attached with on_error moves as a
chain exactly when no outcome of its steps before the last is recorded. -/
theorem DelayedTree.handlerLaw_iff (h : DelayedTree env st root refs st') (hp : p ∈ refs)
    (hc : c ∈ (st.heap p).onErrorDelayables) (hcls : (st.heap c).cls = .chain delayables)
    (hw : w.store = st'.store) (hpath : WorkerPath w steps w') :
    HandlerLaw st' delayables steps ↔ NoOutcomeBeforeLast st' delayables steps := by
  have hcomp := h.compiles.1
  have hcr := hcomp.mem_of_callback hp (.inr hc)
  have hcls' := (chain_of_shape (hcomp.shape c) delayables).mpr hcls
  obtain ⟨u, _, herror⟩ := hcomp.callbacksWired hp
  have hon : (st'.heap c).runOnFailure = true :=
    congrArg Context.runOnFailure (herror c (hcomp.onErrorDelayables p ▸ hc))
  refine forall₄_congr fun w₁ e w₂ hstep ↦ ?_
  obtain ⟨hrun, hg, s', hcommits, rfl⟩ := hpath.of_mem hstep
  refine forall₅_congr fun i x y q j ↦ forall₄_congr fun hx hy hq hj ↦ ?_
  have hpair : HandlerPair w.store q j := hw ▸ h.handlerPair hcr hcls' hon hx hy hq hj
  exact (hpair.run hrun).stepLaw hg hcommits

end Handler

/-! ### A handler of two steps -/

/-- A job with a chain of two steps for its failure. -/
def jobWithHandler : Session where
  heap
    | 0 =>
      { cls := .delayable { modelName := "res.partner", jobMethod := some "ping" }
          { maxRetries := some 1 } none, onErrorDelayables := [1] }
    | 1 => { cls := .chain [2, 3] }
    | _ => { cls := .delayable { modelName := "res.partner", jobMethod := some "ping" } {} none }
  store := .empty

/-- Worker 0 runs the job, which fails and fails again after a while. -/
def failsTwiceThenEnds : List Event := [
  .acquireJobLock { workerUuid := 0 } (fun _ ↦ none) fun _ ↦ false,
  .handleException ⟨0, { workerUuid := 0 }, 1⟩ .exception "",
  .tick 1000000000,
  .acquireJobLock { workerUuid := 0 } (fun _ ↦ none) fun _ ↦ false,
  .handleException ⟨3, { workerUuid := 0 }, 1⟩ .exception ""]

/-- Worker 0 runs the first step of the handler. -/
def handles : List Event := [
  .acquireJobLock { workerUuid := 0 } (fun _ ↦ none) fun _ ↦ false,
  .finalizeJob ⟨5, { workerUuid := 0 }, 2⟩ none]

/-- The first step of the handler completes, and the second is cancelled. -/
theorem not_handlerLaw_jobWithHandler : ¬ ∀ (env : DelayEnv) (st : Session) (root : Ref)
    (refs : List Ref) (st' : Session) (p c : Ref) (delayables : List Ref) (w w' : World)
    (steps : List (World × Event × World)), DelayedTree env st root refs st' → p ∈ refs →
    c ∈ (st.heap p).onErrorDelayables → (st.heap c).cls = .chain delayables →
    w.store = st'.store → WorkerPath w steps w' →
    (∃ q ∈ st'.jobsOf p, w'.store.stateOf q = some .failed) →
    HandlerLaw st' delayables steps := by
  intro hall
  have hrun : ((delayed {} 6 0 jobWithHandler).bind fun st' ↦
      (play [] { store := st'.store, now := 0 } (failsTwiceThenEnds ++ handles)).bind
        fun (steps, w') ↦ steps.head?.map fun (w₁, _, w₂) ↦
          decide ((st'.jobOf 2 = some 2 ∧ st'.jobOf 3 = some 3 ∧ st'.jobsOf 0 = [1]) ∧
            w'.store.stateOf 1 = some .failed ∧ w₁.store.stateOf 2 = some .started ∧
            w₂.store.stateOf 2 = some .done ∧ w₂.store.stateOf 3 = some .cancelled)) =
      some true := by decide +kernel
  obtain ⟨st', hdelay, hplay⟩ := Option.bind_eq_some_iff.mp hrun
  obtain ⟨⟨steps, w'⟩, hplay, hlast⟩ := Option.bind_eq_some_iff.mp hplay
  obtain ⟨⟨w₁, e, w₂⟩, hlast, hout⟩ := Option.map_eq_some_iff.mp hlast
  obtain ⟨⟨h2, h3, h0⟩, hfailed, hs2, hd2, hc3⟩ := of_decide_eq_true hout
  have htree := delayedTree_of_delayed hdelay (show visited _ 6 [0] = some [0, 1, 2, 3] by decide)
    (by decide) (by decide) (by decide) rfl
  have hlaw := hall {} jobWithHandler 0 [0, 1, 2, 3] st' 0 1 [2, 3] _ w' steps htree (by decide)
    (List.mem_singleton_self 1) rfl rfl (workerPath_of_play .refl hplay)
    ⟨1, by rw [h0]; exact List.mem_singleton_self 1, hfailed⟩ w₁ e w₂ (List.mem_of_head? hlast)
    0 2 3 2 3 rfl rfl h2 h3
  cases hc3.symm.trans (hlaw.released (by rw [hs2]; exact nofun) hd2)

/-- As long as only the job itself has failed, the handler moves as a chain. -/
theorem handlerLaw_iff_jobWithHandler : ∃ st' w w' steps, WorkerPath w steps w' ∧
    w'.store.stateOf 1 = some .failed ∧ w'.store.stateOf 2 = some .pending ∧
    w'.store.stateOf 3 = some .waiting ∧ HandlerLaw st' [2, 3] steps ∧
    NoOutcomeBeforeLast st' [2, 3] steps := by
  have hrun : ((delayed {} 6 0 jobWithHandler).bind fun st' ↦
      (play [] { store := st'.store, now := 0 } failsTwiceThenEnds).map fun (steps, w') ↦
        (st'.jobOf 2, (w'.store.stateOf 1, w'.store.stateOf 2, w'.store.stateOf 3),
          steps.all fun (w₁, _, _) ↦ w₁.store.stateOf 2 ≠ some .started)) =
      some (some 2, (some .failed, some .pending, some .waiting), true) := by decide +kernel
  obtain ⟨st', hdelay, hplay⟩ := Option.bind_eq_some_iff.mp hrun
  obtain ⟨⟨steps, w'⟩, hplay, hout⟩ := Option.map_eq_some_iff.mp hplay
  simp only [Prod.mk.injEq, List.all_eq_true] at hout
  obtain ⟨h2, ⟨hs1, hs2, hs3⟩, hnone⟩ := hout
  have htree := delayedTree_of_delayed hdelay (show visited _ 6 [0] = some [0, 1, 2, 3] by decide)
    (by decide) (by decide) (by decide) rfl
  have hpath := workerPath_of_play .refl hplay
  have hfree : NoOutcomeBeforeLast st' [2, 3] steps := by
    intro w₁ e w₂ hmem i x y q j hx hy hq _ ho
    obtain ⟨_, hg, s', hc, _⟩ := hpath.of_mem hmem
    have hstarted := (state_of_recordsOutcome hg hc ho).1
    have hi : i = 0 := by
      have hlt : i + 1 < 2 := (List.getElem?_eq_some_iff.mp hy).1
      omega
    subst hi
    obtain rfl := Option.some.inj hx
    obtain rfl := Option.some.inj (h2.symm.trans hq)
    simpa [hstarted] using hnone _ hmem
  exact ⟨st', _, w', steps, hpath, hs1, hs2, hs3,
    (htree.handlerLaw_iff (p := 0) (c := 1) (by decide) (List.mem_singleton_self 1) rfl rfl
      hpath).mpr hfree, hfree⟩

end JobWorker
