import JobWorker.Graphs.Compilation
import JobWorker.Runs.WorkerRuns
import Mathlib.Tactic.FinCases

/-!
# The order that a tree declares

A tree of schedulers declares an order on its jobs: callbacks come behind the jobs of the
scheduler that they are attached to, steps of a chain behind the step before
(`docs/job-graphs.md:45–113`). After `delay` the rows keep that order through every run of
the workers.
-/

namespace JobWorker

open Delaying World

namespace Context

/-- The wiring names the job as a prerequisite. -/
def WaitsOn (c : Context) (q : JobId) : Prop :=
  c.parentJobId = some q ∨ q ∈ c.dependencyJobIds.getD []

/-- The prerequisites have come true: all of them are done, or for an on_error callback one
has failed. -/
def Open (c : Context) (s : Store) : Prop :=
  if c.runOnFailure then ∃ q, c.WaitsOn q ∧ s.stateOf q = some .failed
  else ∀ q, c.WaitsOn q → s.stateOf q = some .done

/-- The wiring has prerequisites on one axis only, and the parent is no falsy id. -/
structure Sound (c : Context) : Prop where
  parent : c.parentJobId ≠ some 0
  single : c.parentJobId = none ∨ c.dependencyJobIds.getD [] = []

/-- The failure of some job can open the wiring of an on_error callback. -/
def Decided (c : Context) : Prop := c.runOnFailure = true → ∃ q, c.WaitsOn q

section Rows

variable {c : Context} {s : Store} {row : Job} {i : JobId}

/-- The row waits on the jobs that the wiring names. -/
theorem waitsOn_iff (h : Enqueued c row) (hc : c.Sound) (q : JobId) :
    row.WaitsOn q ↔ c.WaitsOn q := by
  have hparent : row.parentId = c.parentJobId := by
    rw [h.parentId]
    cases hp : c.parentJobId with
    | none => rfl
    | some p =>
      rw [Option.filter_some, if_pos]
      simpa [hp] using hc.parent
  rw [Job.WaitsOn, WaitsOn, hparent, Job.dependsOn_iff, Job.dependencies, h.dependencyJobIds]

/-- What the row has met is what opens the wiring. -/
theorem met_iff (h : Enqueued c row) (hc : c.Sound) : s.Met row ↔ c.Open s := by
  simp only [Store.Met, Open, h.runOnFailure, waitsOn_iff h hc]

/-- `enqueue` leaves a gated row. -/
theorem gated_of_enqueued (h : Enqueued c row) (hc : c.Sound) (hd : c.Decided)
    (hrow : s.get? i = some row) : s.Gated i row := by
  refine ⟨row, hrow, rfl, fun _ ↦ ?_, fun hrel ↦ ?_⟩
  · rw [h.count, ← h.dependencyJobIds]
    have hle := Finset.card_le_card
      (Finset.filter_subset (fun d ↦ s.stateOf d ≠ some .done) row.dependencies.toFinset)
    exact_mod_cast hle.trans row.dependencies.toFinset_card_le
  · rw [Store.Released, Store.stateOf_of_get? hrow, h.state] at hrel
    split at hrel
    · rcases hrel with hrel | hrel | hrel <;> cases hrel
    · next hfree =>
      rw [not_or, not_not] at hfree
      have hnone (q : JobId) : ¬ c.WaitsOn q := by
        rintro (hq | hq)
        · refine hfree.1 ?_
          rw [hq]
          simpa [hq] using hc.parent
        · rw [hfree.2] at hq
          cases hq
      rw [met_iff h hc, Open]
      split
      · next hon => exact absurd (hd hon) (not_exists.mpr hnone)
      · exact fun q hq ↦ absurd hq (hnone q)

/-- A job is not released before its wiring opens. -/
theorem open_of_released {w w' : World} (h : Enqueued c row) (hc : c.Sound) (hd : c.Decided)
    (hrow : w.store.get? i = some row) (hrun : WorkerRun w w') (hrel : w'.store.Released i) :
    c.Open w'.store := by
  have hsingle : row.parentId = none ∨ row.dependencies = [] := by
    rw [Job.dependencies, h.dependencyJobIds, h.parentId]
    exact hc.single.imp_left fun hn ↦ by rw [hn]; rfl
  obtain ⟨r, _, hwire, _, hmet⟩ := hrun.gated hsingle (gated_of_enqueued h hc hd hrow)
  exact (met_iff h hc).mp ((met_of_wiring hwire).mp (hmet hrel))

end Rows
end Context

/-- The wiring that a delayed scheduler has handed to its on_done callbacks, but for the
graph. -/
def Session.prerequisites (st : Session) (p : Ref) : Context :=
  match (st.heap p).cls with
  | .delayable _ _ job => { parentJobId := job }
  | .group delayables => { dependencyJobIds := some (delayables.filterMap st.jobOf) }
  | .chain delayables => { parentJobId := delayables.getLast?.bind st.jobOf }

/-- Every on_error callback of a tree has prerequisites when no group or chain is empty. -/
def NonemptyParts (heap : Ref → Scheduler) (refs : List Ref) : Prop :=
  ∀ p ∈ refs, ∀ delayables, (heap p).Comprises delayables → delayables ≠ []

/-- A tree of schedulers that nobody has wired, with free identity keys, and what `delay` of
its root makes of it when the jobs go to the queue. -/
structure DelayedTree (env : DelayEnv) (st : Session) (root : Ref) (refs : List Ref)
    (st' : Session) : Prop where
  forest : Forest st.heap [root] refs
  nodup : refs.Nodup
  unwired : ∀ a ∈ refs, (st.heap a).context = {}
  freeKeys : FreeKeys env st refs
  nextId : 0 < st.store.nextId
  queued : env.mustRunWithoutDelay = false
  returns : ∃ fuel job, Returns (delay env fuel root) st job st'

section Tree

variable {env : DelayEnv} {st st' : Session} {root a p x : Ref} {refs : List Ref}

/-- The rows and the wiring of a delayed tree. -/
theorem DelayedTree.compiles (h : DelayedTree env st root refs st') :
    Compiles refs st st' ∧ (st'.heap root).context = {} := by
  obtain ⟨fuel, job, hreturns⟩ := h.returns
  obtain ⟨hcomp, hroot, _⟩ := compiles_of_delay h.queued h.forest h.nodup h.unwired h.freeKeys
    h.nextId hreturns
  exact ⟨hcomp, hroot⟩

/-- A chain stays one. -/
theorem chain_of_shape {d d' : Scheduler} (h : d'.shape = d.shape) (delayables : List Ref) :
    d'.cls = .chain delayables ↔ d.cls = .chain delayables := by
  have hiff (d : Scheduler) : d.cls = .chain delayables ↔ d.shape = .chain delayables := by
    unfold Scheduler.shape
    cases d.cls <;> simp
  rw [hiff, hiff, h]

/-- A group stays one. -/
theorem group_of_shape {d d' : Scheduler} (h : d'.shape = d.shape) (delayables : List Ref) :
    d'.cls = .group delayables ↔ d.cls = .group delayables := by
  have hiff (d : Scheduler) : d.cls = .group delayables ↔ d.shape = .group delayables := by
    unfold Scheduler.shape
    cases d.cls <;> simp
  rw [hiff, hiff, h]

/-- A group or chain keeps its delayables. -/
theorem comprises_of_shape {d d' : Scheduler} (h : d'.shape = d.shape) (delayables : List Ref) :
    d'.Comprises delayables ↔ d.Comprises delayables := by
  rw [Scheduler.Comprises, Scheduler.Comprises, group_of_shape h, chain_of_shape h]

/-- A delayable stays one. -/
theorem isDelayable_of_shape {d d' : Scheduler} (h : d'.shape = d.shape) :
    d'.IsDelayable ↔ d.IsDelayable := by
  have hiff (d : Scheduler) : d.IsDelayable ↔
      ∃ call properties, d.shape = .delayable call properties none := by
    unfold Scheduler.IsDelayable Scheduler.shape
    cases d.cls <;> simp
  rw [hiff, hiff, h]

/-- A wired delayable has a job, and its row the wiring of the delayable. -/
theorem Compiles.job (hcomp : Compiles refs st st') (ha : a ∈ refs)
    (hd : (st'.heap a).IsDelayable) : ∃ j row, st'.jobOf a = some j ∧
      st'.store.get? j = some row ∧ Enqueued (st'.heap a).context row := by
  obtain ⟨call, properties, job, hcls⟩ := hd
  have hwired := hcomp.wired a ha
  unfold Session.Wired at hwired
  rw [hcls] at hwired
  obtain ⟨j, row, rfl, hrow, hcols, _⟩ := hwired
  exact ⟨j, row, by rw [Session.jobOf, hcls], hrow, hcols⟩

/-- An object with a job is a delayable. -/
theorem isDelayable_of_jobOf {j : JobId} (h : st.jobOf a = some j) : (st.heap a).IsDelayable := by
  unfold Session.jobOf at h
  split at h
  · exact ⟨_, _, _, ‹_›⟩
  · cases h

/-- The callbacks of a delayed scheduler carry the wiring that it has handed to them. -/
theorem Compiles.callbacksWired (hcomp : Compiles refs st st') (hp : p ∈ refs) :
    ∃ u, st'.CallbacksWired p { st'.prerequisites p with graphUuid := u } := by
  have hwired := hcomp.wired p hp
  unfold Session.Wired at hwired
  unfold Session.prerequisites
  cases hcls : (st'.heap p).cls with
  | delayable call properties job =>
    rw [hcls] at hwired
    obtain ⟨j, row, rfl, _, _, _, _, hcallbacks⟩ := hwired
    exact ⟨row.graphUuid, hcallbacks⟩
  | group delayables =>
    rw [hcls] at hwired
    obtain ⟨u, _, _, hcallbacks⟩ := hwired
    exact ⟨some u, hcallbacks⟩
  | chain delayables =>
    rw [hcls] at hwired
    obtain ⟨u, _, _, hcallbacks⟩ := hwired
    exact ⟨some u, hcallbacks⟩

/-- Members and steps are objects of the tree. -/
theorem Compiles.mem_of_comprises (hcomp : Compiles refs st st') (hp : p ∈ refs)
    {delayables : List Ref} (hcls : (st'.heap p).Comprises delayables) (hx : x ∈ delayables) :
    x ∈ refs := by
  refine hcomp.closed p hp x ?_
  unfold Scheduler.links
  rcases hcls with hcls | hcls <;> rw [hcls] <;> exact List.mem_append_left _ hx

/-- Callbacks are objects of the tree. -/
theorem Compiles.mem_of_callback (hcomp : Compiles refs st st') (hp : p ∈ refs)
    (hx : x ∈ (st.heap p).nextDelayables ∨ x ∈ (st.heap p).onErrorDelayables) : x ∈ refs := by
  refine hcomp.closed p hp x ?_
  have hcallbacks : x ∈ (st'.heap p).nextDelayables ++ (st'.heap p).onErrorDelayables := by
    rwa [hcomp.nextDelayables, hcomp.onErrorDelayables, List.mem_append]
  unfold Scheduler.links
  split
  · exact hcallbacks
  · exact List.mem_append_right _ hcallbacks
  · exact List.mem_append_right _ hcallbacks

/-- What a scheduler hands on is on one axis, and no falsy id if it has no such jobs. -/
theorem prerequisites_sound (hself : st.jobOf p ≠ some 0)
    (hmembers : ∀ delayables, (st.heap p).Comprises delayables →
      ∀ d ∈ delayables, st.jobOf d ≠ some 0) : (st.prerequisites p).Sound := by
  unfold Session.prerequisites
  cases hcls : (st.heap p).cls with
  | delayable call properties job =>
    rw [Session.jobOf, hcls] at hself
    exact ⟨hself, .inr rfl⟩
  | group delayables => exact ⟨(fun h ↦ by cases h), .inl rfl⟩
  | chain delayables =>
    refine ⟨fun h ↦ ?_, .inr rfl⟩
    obtain ⟨x, hx, hzero⟩ := Option.bind_eq_some_iff.mp h
    exact hmembers delayables (.inr hcls) x (List.mem_of_getLast? hx) hzero

/-- Prerequisites on one axis. -/
theorem Compiles.sound_prerequisites (hcomp : Compiles refs st st') (hp : p ∈ refs) :
    (st'.prerequisites p).Sound := by
  have hpos {a : Ref} (ha : a ∈ refs) : st'.jobOf a ≠ some 0 := fun h ↦
    Nat.lt_irrefl 0 (hcomp.fresh a ha 0 h).1
  exact prerequisites_sound (hpos hp) fun delayables hcls d hd ↦
    hpos (hcomp.mem_of_comprises hp hcls hd)

/-- The jobs that a scheduler hands on are its own. -/
theorem mem_jobsOf_of_waitsOn {q : JobId} (h : (st.prerequisites p).WaitsOn q) :
    q ∈ st.jobsOf p := by
  unfold Session.prerequisites Context.WaitsOn at h
  unfold Session.jobsOf
  cases hcls : (st.heap p).cls with
  | delayable call properties job => simpa [hcls] using h
  | group delayables => simpa [hcls] using h
  | chain delayables =>
    rw [hcls] at h
    rcases h with h | h
    · obtain ⟨x, hx, hq⟩ := Option.bind_eq_some_iff.mp h
      exact List.mem_filterMap.mpr ⟨x, List.mem_of_getLast? hx, hq⟩
    · cases h

/-- The members and steps of a tree have jobs. -/
theorem DelayedTree.member_job (h : DelayedTree env st root refs st') (hp : p ∈ refs)
    {delayables : List Ref} (hcls : (st'.heap p).Comprises delayables) (hx : x ∈ delayables) :
    ∃ j, st'.jobOf x = some j := by
  have hcomp := h.compiles.1
  have hcls' := (comprises_of_shape (hcomp.shape p) delayables).mp hcls
  obtain ⟨j, _, hj, _⟩ := hcomp.job (hcomp.mem_of_comprises hp hcls hx)
    ((isDelayable_of_shape (hcomp.shape x)).mpr (h.forest.isDelayable hp hcls' hx))
  exact ⟨j, hj⟩

/-- What a loop leaves on the object behind `x`. -/
theorem handed_succ {wire : Wire} {g : Scheduler} {previous : Option JobId} {first : Bool}
    {roots : List Ref} {i : Nat} {y : Ref} (h : Handed wire g st previous first roots)
    (hx : roots[i]? = some x) (hy : roots[i + 1]? = some y) :
    (st.heap y).context = (wire g (st.jobOf x) false { cls := .group [] }).context := by
  induction roots generalizing previous first i with
  | nil => cases hx
  | cons r roots ih =>
    cases i with
    | zero =>
      obtain rfl := Option.some.inj hx
      cases roots with
      | nil => cases hy
      | cons r' roots =>
        obtain rfl := Option.some.inj hy
        exact h.2.1
    | succ i => exact ih h.2 hx hy

/-- The wiring of the steps of a chain. -/
theorem Compiles.steps (hcomp : Compiles refs st st') (hp : p ∈ refs) {delayables : List Ref}
    (hcls : (st'.heap p).cls = .chain delayables) : ∃ u,
      (∀ x, delayables.head? = some x →
        (st'.heap x).context = { (st'.heap p).context with graphUuid := some u }) ∧
      ∀ i x y j, delayables[i]? = some x → delayables[i + 1]? = some y → st'.jobOf x = some j →
        (st'.heap y).context = ⟨some u, some j, none, (st'.heap p).runOnFailure⟩ := by
  have hwired := hcomp.wired p hp
  unfold Session.Wired at hwired
  rw [hcls] at hwired
  obtain ⟨u, _, hsteps, _⟩ := hwired
  refine ⟨u, fun x hx ↦ ?_, fun i x y j hx hy hj ↦ ?_⟩
  · cases delayables with
    | nil => cases hx
    | cons r delayables =>
      obtain rfl := Option.some.inj hx
      rw [hsteps.1]
      simp [wireStep, Scheduler.context]
  · rw [handed_succ hsteps hx hy, hj]
    simp [wireStep, Scheduler.context]

/-- The wiring of the members of a group. -/
theorem Compiles.members (hcomp : Compiles refs st st') (hp : p ∈ refs) {delayables : List Ref}
    (hcls : (st'.heap p).cls = .group delayables) : ∃ u, ∀ x ∈ delayables,
      (st'.heap x).context = { (st'.heap p).context with graphUuid := some u } := by
  have hwired := hcomp.wired p hp
  unfold Session.Wired at hwired
  rw [hcls] at hwired
  obtain ⟨u, _, hmembers, _⟩ := hwired
  exact ⟨u, hmembers⟩

/-- What holds of the wiring of the root and of callbacks, and passes to members and steps,
holds of all the wiring. -/
theorem DelayedTree.context_induction {P : Context → Prop}
    (h : DelayedTree env st root refs st') (hroot : P {})
    (hnext : ∀ p ∈ refs, ∀ u, P { st'.prerequisites p with graphUuid := u })
    (herror : ∀ p ∈ refs, ∀ u,
      P { st'.prerequisites p with graphUuid := u, runOnFailure := true })
    (hmember : ∀ c u, P c → P { c with graphUuid := some u })
    (hstep : ∀ u j b, 0 < j → P ⟨some u, some j, none, b⟩) (ha : a ∈ refs) :
    P (st'.heap a).context := by
  obtain ⟨hcomp, hunwired⟩ := h.compiles
  have hcallback {a : Ref} (ha : a ∈ refs) (hd : ∀ p ∈ refs, ∀ delayables,
      (st.heap p).Comprises delayables → a ∉ delayables) : P (st'.heap a).context := by
    cases h.forest.origin ha with
    | root hr => rwa [List.mem_singleton.mp hr, hunwired]
    | @next p hp hx =>
      obtain ⟨u, hn, _⟩ := hcomp.callbacksWired hp
      rw [hn a (hcomp.nextDelayables p ▸ hx)]
      exact hnext p hp u
    | @error p hp hx =>
      obtain ⟨u, _, he⟩ := hcomp.callbacksWired hp
      rw [he a (hcomp.onErrorDelayables p ▸ hx)]
      exact herror p hp u
    | @member p delayables hp hcls hx => exact absurd hx (hd p hp delayables hcls)
  by_cases hd : ∃ p ∈ refs, ∃ delayables, (st.heap p).Comprises delayables ∧ a ∈ delayables
  · obtain ⟨p, hp, delayables, hcls, hx⟩ := hd
    -- Members are delayables, so the group or chain is no member itself.
    have hself : P (st'.heap p).context := hcallback hp fun q hq ds hds hmem ↦ by
      obtain ⟨_, _, _, hdel⟩ := h.forest.isDelayable hq hds hmem
      rcases hcls with hcls | hcls <;> rw [hcls] at hdel <;> cases hdel
    rcases (comprises_of_shape (hcomp.shape p) delayables).mpr hcls with hcls' | hcls'
    · obtain ⟨u, hu⟩ := hcomp.members hp hcls'
      rw [hu a hx]
      exact hmember _ u hself
    · obtain ⟨u, hhead, hsucc⟩ := hcomp.steps hp hcls'
      obtain ⟨i, hi⟩ := List.mem_iff_getElem?.mp hx
      cases i with
      | zero =>
        rw [hhead a (List.head?_eq_getElem? ▸ hi)]
        exact hmember _ u hself
      | succ i =>
        have hlt : i < delayables.length :=
          Nat.lt_of_succ_lt (List.getElem?_eq_some_iff.mp hi).1
        have hmem : delayables[i] ∈ delayables := List.getElem_mem hlt
        obtain ⟨j, hj⟩ := h.member_job hp (.inr hcls') hmem
        rw [hsucc i _ a j (List.getElem?_eq_getElem hlt) hi hj]
        exact hstep u j _ (hcomp.fresh _ (hcomp.mem_of_comprises hp (.inr hcls') hmem) j hj).1
  · refine hcallback ha fun p hp ds hds hmem ↦ hd ⟨p, hp, ds, hds, hmem⟩

/-- The prerequisites of an object are on one axis. -/
theorem DelayedTree.sound (h : DelayedTree env st root refs st') (ha : a ∈ refs) :
    (st'.heap a).context.Sound := by
  have hcomp := h.compiles.1
  refine h.context_induction (P := Context.Sound) ⟨nofun, .inl rfl⟩ (fun p hp u ↦ ?_)
    (fun p hp u ↦ ?_) (fun c u hc ↦ ⟨hc.parent, hc.single⟩) (fun u j b hj ↦ ?_) ha
  · exact ⟨(hcomp.sound_prerequisites hp).parent, (hcomp.sound_prerequisites hp).single⟩
  · exact ⟨(hcomp.sound_prerequisites hp).parent, (hcomp.sound_prerequisites hp).single⟩
  · exact ⟨fun h ↦ hj.ne' (Option.some.inj h), .inr rfl⟩

/-- On_done callbacks are wired as such. -/
theorem runOnFailure_prerequisites : (st.prerequisites p).runOnFailure = false := by
  unfold Session.prerequisites
  cases (st.heap p).cls <;> rfl

/-- A scheduler that is not empty has prerequisites to hand on. -/
theorem DelayedTree.exists_waitsOn (h : DelayedTree env st root refs st') (hp : p ∈ refs)
    (hne : ∀ delayables, (st.heap p).Comprises delayables → delayables ≠ []) :
    ∃ q, (st'.prerequisites p).WaitsOn q := by
  have hcomp := h.compiles.1
  unfold Session.prerequisites
  cases hcls : (st'.heap p).cls with
  | delayable call properties job =>
    obtain ⟨j, _, hj, _⟩ := hcomp.job hp ⟨call, properties, job, hcls⟩
    rw [Session.jobOf, hcls] at hj
    exact ⟨j, .inl hj⟩
  | group delayables =>
    obtain ⟨x, rest, rfl⟩ := List.exists_cons_of_ne_nil
      (hne delayables ((comprises_of_shape (hcomp.shape p) _).mp (.inl hcls)))
    obtain ⟨j, hj⟩ := h.member_job hp (.inl hcls) List.mem_cons_self
    exact ⟨j, .inr (List.mem_filterMap.mpr ⟨x, List.mem_cons_self, hj⟩)⟩
  | chain delayables =>
    have hlast := List.getLast?_eq_some_getLast
      (hne delayables ((comprises_of_shape (hcomp.shape p) _).mp (.inr hcls)))
    obtain ⟨j, hj⟩ := h.member_job hp (.inr hcls) (List.mem_of_getLast? hlast)
    exact ⟨j, .inl (Option.bind_eq_some_iff.mpr ⟨_, hlast, hj⟩)⟩

/-- In a tree without empty parts every on_error callback has prerequisites. -/
theorem DelayedTree.decided (h : DelayedTree env st root refs st')
    (hne : NonemptyParts st.heap refs) (ha : a ∈ refs) : (st'.heap a).context.Decided := by
  refine h.context_induction (P := Context.Decided) nofun (fun p hp u hon ↦ ?_)
    (fun p hp u _ ↦ h.exists_waitsOn hp (hne p hp)) (fun c u hc ↦ hc)
    (fun u j b _ _ ↦ ⟨j, .inl rfl⟩) ha
  have hrun : (st'.prerequisites p).runOnFailure = false := runOnFailure_prerequisites
  rw [hrun] at hon
  cases hon

section Run

variable {w w' : World} {j q : JobId} {delayables : List Ref} {i : Nat} {y : Ref}

/-- A job is not released before the wiring of its delayable opens. -/
theorem DelayedTree.open_of_released (h : DelayedTree env st root refs st') (ha : a ∈ refs)
    (hd : (st'.heap a).context.Decided) (hw : w.store = st'.store) (hrun : WorkerRun w w')
    (hj : st'.jobOf a = some j) (hrel : w'.store.Released j) :
    (st'.heap a).context.Open w'.store := by
  obtain ⟨_, row, hj', hrow, hcols⟩ := h.compiles.1.job ha (isDelayable_of_jobOf hj)
  obtain rfl := Option.some.inj (hj.symm.trans hj')
  exact Context.open_of_released hcols (h.sound ha) hd (hw ▸ hrow) hrun hrel

/-- A step of a chain is not released before the step before it is done. -/
theorem DelayedTree.done_of_released_step (h : DelayedTree env st root refs st') (hp : p ∈ refs)
    (hw : w.store = st'.store) (hrun : WorkerRun w w')
    (hcls : (st'.heap p).cls = .chain delayables) (hon : (st'.heap p).runOnFailure = false)
    (hx : delayables[i]? = some x) (hy : delayables[i + 1]? = some y)
    (hq : st'.jobOf x = some q) (hj : st'.jobOf y = some j) (hrel : w'.store.Released j) :
    w'.store.stateOf q = some .done := by
  have hcomp := h.compiles.1
  obtain ⟨u, _, hsucc⟩ := hcomp.steps hp hcls
  have hcontext := hsucc i x y q hx hy hq
  have hmem := hcomp.mem_of_comprises hp (.inr hcls) (List.mem_of_getElem? hy)
  have hopen := h.open_of_released hmem (by rw [hcontext, hon]; exact nofun) hw hrun hj hrel
  rw [hcontext, hon] at hopen
  exact hopen q (.inl rfl)

/-- The steps before a released step are done. -/
theorem DelayedTree.done_of_earlier_step (h : DelayedTree env st root refs st') (hp : p ∈ refs)
    (hw : w.store = st'.store) (hrun : WorkerRun w w')
    (hcls : (st'.heap p).cls = .chain delayables) (hon : (st'.heap p).runOnFailure = false)
    {k : Nat} (hi : i < k) (hx : delayables[i]? = some x) (hy : delayables[k]? = some y)
    (hq : st'.jobOf x = some q) (hj : st'.jobOf y = some j) (hrel : w'.store.Released j) :
    w'.store.stateOf q = some .done := by
  induction k generalizing y j with
  | zero => cases hi
  | succ k ih =>
    have hlt : k < delayables.length := Nat.lt_of_succ_lt (List.getElem?_eq_some_iff.mp hy).1
    have hz : delayables[k]? = some delayables[k] := List.getElem?_eq_getElem hlt
    obtain ⟨v, hv⟩ := h.member_job hp (.inr hcls) (List.getElem_mem hlt)
    have hdone := h.done_of_released_step hp hw hrun hcls hon hz hy hv hj hrel
    rcases Nat.lt_succ_iff_lt_or_eq.mp hi with hi | rfl
    · exact ih hi hz hv (.inr (.inr hdone))
    · obtain rfl := Option.some.inj (hx.symm.trans hz)
      obtain rfl := Option.some.inj (hq.symm.trans hv)
      exact hdone

/-- No job of a scheduler is released before the wiring of the scheduler opens. -/
theorem DelayedTree.open_of_released_job (h : DelayedTree env st root refs st') (hx : x ∈ refs)
    (hd : (st'.heap x).context.Decided)
    (hon : ∀ delayables, (st'.heap x).cls = .chain delayables → (st'.heap x).runOnFailure = false)
    (hw : w.store = st'.store) (hrun : WorkerRun w w') (hj : j ∈ st'.jobsOf x)
    (hrel : w'.store.Released j) : (st'.heap x).context.Open w'.store := by
  have hcomp := h.compiles.1
  unfold Session.jobsOf at hj
  cases hcls : (st'.heap x).cls with
  | delayable call properties job =>
    rw [hcls] at hj
    have hjob : st'.jobOf x = some j := by
      rw [Session.jobOf, hcls]
      exact Option.mem_toList.mp hj
    exact h.open_of_released hx hd hw hrun hjob hrel
  | group delayables =>
    rw [hcls] at hj
    obtain ⟨a, ha, hja⟩ := List.mem_filterMap.mp hj
    obtain ⟨u, hu⟩ := hcomp.members hx hcls
    have hopen := h.open_of_released (hcomp.mem_of_comprises hx (.inl hcls) ha)
      (by rw [hu a ha]; exact hd) hw hrun hja hrel
    rw [hu a ha] at hopen
    exact hopen
  | chain delayables =>
    rw [hcls] at hj
    obtain ⟨a, ha, hja⟩ := List.mem_filterMap.mp hj
    obtain ⟨k, hk⟩ := List.mem_iff_getElem?.mp ha
    -- The first step takes over the wiring, and it is released when a later one is.
    obtain ⟨b, rest, rfl⟩ := List.exists_cons_of_ne_nil (List.ne_nil_of_mem ha)
    obtain ⟨u, hhead, _⟩ := hcomp.steps hx hcls
    have hb := hhead b rfl
    have hrefs := hcomp.mem_of_comprises hx (.inr hcls) (List.mem_cons_self (a := b) (l := rest))
    obtain ⟨v, hv⟩ := h.member_job hx (.inr hcls) (List.mem_cons_self (a := b) (l := rest))
    have hreleased : w'.store.Released v := by
      cases k with
      | zero =>
        obtain rfl := Option.some.inj hk
        obtain rfl := Option.some.inj (hja.symm.trans hv)
        exact hrel
      | succ k =>
        exact .inr (.inr (h.done_of_earlier_step hx hw hrun hcls (hon _ hcls) (Nat.succ_pos k) rfl
          hk hv hja hrel))
    have hopen := h.open_of_released hrefs (by rw [hb]; exact hd) hw hrun hv hreleased
    rw [hb] at hopen
    exact hopen

/-- A scheduler has completed when the jobs that it has handed on are done. -/
theorem DelayedTree.done_of_prerequisites (h : DelayedTree env st root refs st') (hp : p ∈ refs)
    (hon : ∀ delayables, (st'.heap p).cls = .chain delayables → (st'.heap p).runOnFailure = false)
    (hw : w.store = st'.store) (hrun : WorkerRun w w')
    (hdone : ∀ q, (st'.prerequisites p).WaitsOn q → w'.store.stateOf q = some .done)
    (hq : q ∈ st'.jobsOf p) : w'.store.stateOf q = some .done := by
  unfold Session.jobsOf at hq
  unfold Session.prerequisites at hdone
  cases hcls : (st'.heap p).cls with
  | delayable call properties job =>
    rw [hcls] at hq hdone
    exact hdone q (.inl (Option.mem_toList.mp hq))
  | group delayables =>
    rw [hcls] at hq hdone
    exact hdone q (.inr hq)
  | chain delayables =>
    rw [hcls] at hq hdone
    obtain ⟨x, hx, hqx⟩ := List.mem_filterMap.mp hq
    obtain ⟨i, hi⟩ := List.mem_iff_getElem?.mp hx
    have hlast := List.getLast?_eq_some_getLast (List.ne_nil_of_mem hx)
    obtain ⟨v, hv⟩ := h.member_job hp (.inr hcls) (List.mem_of_getLast? hlast)
    have hvdone := hdone v (.inl (Option.bind_eq_some_iff.mpr ⟨_, hlast, hv⟩))
    rw [List.getLast?_eq_getElem?] at hlast
    have hlt := (List.getElem?_eq_some_iff.mp hi).1
    rcases Nat.lt_or_eq_of_le (Nat.le_sub_one_of_lt hlt) with hlt | rfl
    · exact h.done_of_earlier_step hp hw hrun hcls (hon _ hcls) hlt hi hlast hqx hv
        (.inr (.inr hvdone))
    · rw [← Option.some.inj (hi.symm.trans hlast), hqx] at hv
      exact Option.some.inj hv ▸ hvdone

/-- The chains of a tree are no on_error callbacks, if none is attached as one. -/
theorem DelayedTree.chain_onDone (h : DelayedTree env st root refs st')
    (herror : ∀ p ∈ refs, ∀ x ∈ (st.heap p).onErrorDelayables, ∀ delayables,
      (st.heap x).cls ≠ .chain delayables) (hp : p ∈ refs)
    (hcls : (st'.heap p).cls = .chain delayables) : (st'.heap p).runOnFailure = false := by
  obtain ⟨hcomp, hroot⟩ := h.compiles
  have hchain := (chain_of_shape (hcomp.shape p) delayables).mp hcls
  cases h.forest.origin hp with
  | root hr =>
    rw [List.mem_singleton.mp hr]
    exact congrArg Context.runOnFailure hroot
  | @next q hq hx =>
    obtain ⟨u, hn, _⟩ := hcomp.callbacksWired hq
    have hcontext := congrArg Context.runOnFailure (hn p (hcomp.nextDelayables q ▸ hx))
    exact hcontext.trans runOnFailure_prerequisites
  | error hq hx => exact absurd hchain (herror _ hq p hx delayables)
  | member hq hds hx =>
    obtain ⟨_, _, _, hdel⟩ := h.forest.isDelayable hq hds hx
    rw [hchain] at hdel
    cases hdel

end Run

/-! ### One graph -/

/-- Every step is handed the graph of the chain. -/
theorem graphUuid_of_handed {u : Nat} {g : Scheduler} {previous : Option JobId} {first : Bool}
    {roots : List Ref}
    (h : Handed (fun g previous first ↦ wireStep u previous first g) g st previous first roots) :
    ∀ x ∈ roots, (st.heap x).graphUuid = some u := by
  induction roots generalizing previous first with
  | nil => exact fun x hx ↦ by cases hx
  | cons r roots ih =>
    intro x hx
    rcases List.mem_cons.mp hx with rfl | hx
    · exact congrArg Context.graphUuid h.1
    · exact ih h.2 x hx

/-- A scheduler hands one graph to everything that it links to, its own if it has one, and
its row belongs to it. -/
theorem Compiles.graph (hcomp : Compiles refs st st') (ha : a ∈ refs) : ∃ u : Option Nat,
    (∀ v, (st'.heap a).graphUuid = some v → u = some v) ∧
      (∀ x ∈ (st'.heap a).links, u.isSome = true ∧ (st'.heap x).graphUuid = u) ∧
      ∀ j row, st'.jobOf a = some j → st'.store.get? j = some row → row.graphUuid = u := by
  have hwired := hcomp.wired a ha
  unfold Session.Wired Session.CallbacksWired at hwired
  unfold Scheduler.links Session.jobOf
  cases hcls : (st'.heap a).cls with
  | delayable call properties job =>
    rw [hcls] at hwired
    obtain ⟨j, row, rfl, hrow, _, hgraph, hopens, hnext, herror⟩ := hwired
    refine ⟨row.graphUuid, fun v hv ↦ ?_, fun x hx ↦ ?_, fun i row' hi hrow' ↦ ?_⟩
    · rw [hv] at hgraph
      exact hgraph.resolve_right fun h ↦ by cases h.1
    · rcases List.mem_append.mp hx with hx | hx
      · exact ⟨hopens (.inl (List.ne_nil_of_mem hx)), congrArg Context.graphUuid (hnext x hx)⟩
      · exact ⟨hopens (.inr (List.ne_nil_of_mem hx)), congrArg Context.graphUuid (herror x hx)⟩
    · obtain rfl := Option.some.inj hi
      rw [Option.some.inj (hrow.symm.trans hrow')]
  | group delayables =>
    rw [hcls] at hwired
    obtain ⟨u, hu, hmembers, hnext, herror⟩ := hwired
    refine ⟨some u, fun v hv ↦ by rw [hu v hv], fun x hx ↦ ⟨rfl, ?_⟩, fun _ _ h ↦ by cases h⟩
    simp only [List.mem_append] at hx
    rcases hx with hx | hx | hx
    · exact congrArg Context.graphUuid (hmembers x hx)
    · exact congrArg Context.graphUuid (hnext x hx)
    · exact congrArg Context.graphUuid (herror x hx)
  | chain delayables =>
    rw [hcls] at hwired
    obtain ⟨u, hu, hsteps, hnext, herror⟩ := hwired
    refine ⟨some u, fun v hv ↦ by rw [hu v hv], fun x hx ↦ ⟨rfl, ?_⟩, fun _ _ h ↦ by cases h⟩
    simp only [List.mem_append] at hx
    rcases hx with hx | hx | hx
    · exact graphUuid_of_handed hsteps x hx
    · exact congrArg Context.graphUuid (hnext x hx)
    · exact congrArg Context.graphUuid (herror x hx)

/-- Objects that are handed a graph pass it on to everything below them. -/
theorem Compiles.graphUuid {roots part : List Ref} {u : Nat} (hcomp : Compiles refs st st')
    (hforest : Forest st.heap roots part) (hsub : ∀ a ∈ part, a ∈ refs)
    (hroots : ∀ r ∈ roots, (st'.heap r).graphUuid = some u) :
    ∀ a ∈ part, (st'.heap a).graphUuid = some u := by
  have hlinks {r : Ref} (hr : r ∈ refs) (hu : (st'.heap r).graphUuid = some u) :
      ∀ x ∈ (st.heap r).links, (st'.heap x).graphUuid = some u := by
    rw [← links_of_shape (hcomp.shape r) (hcomp.nextDelayables r) (hcomp.onErrorDelayables r)]
    obtain ⟨v, hv, hx, _⟩ := hcomp.graph hr
    exact fun x hmem ↦ (hx x hmem).2.trans (hv u hu)
  induction hforest with
  | nil => exact fun a ha ↦ by cases ha
  | @delayable r call properties roots next error rest hcls _ _ _ ihNext ihError ih =>
    simp only [List.cons_append, List.append_assoc, List.mem_cons, List.mem_append] at hsub ⊢
    have hr := hlinks (hsub r (.inl rfl)) (hroots r List.mem_cons_self)
    rw [Scheduler.links, hcls] at hr
    rintro a (rfl | ha | ha | ha)
    · exact hroots a List.mem_cons_self
    · exact ihNext (fun a ha ↦ hsub a (by simp [ha]))
        (fun x hx ↦ hr x (List.mem_append_left _ hx)) a ha
    · exact ihError (fun a ha ↦ hsub a (by simp [ha]))
        (fun x hx ↦ hr x (List.mem_append_right _ hx)) a ha
    · exact ih (fun a ha ↦ hsub a (by simp [ha]))
        (fun x hx ↦ hroots x (List.mem_cons_of_mem _ hx)) a ha
  | @compound r delayables roots members next error rest hcls _ _ _ _ _ ihMembers ihNext ihError
      ih =>
    simp only [List.cons_append, List.append_assoc, List.mem_cons, List.mem_append] at hsub ⊢
    have hr := hlinks (hsub r (.inl rfl)) (hroots r List.mem_cons_self)
    have hcls' : (st.heap r).links =
        delayables ++ ((st.heap r).nextDelayables ++ (st.heap r).onErrorDelayables) := by
      unfold Scheduler.links
      rcases hcls with hcls | hcls <;> rw [hcls]
    simp only [hcls', List.mem_append] at hr
    rintro a (rfl | ha | ha | ha | ha)
    · exact hroots a List.mem_cons_self
    · exact ihMembers (fun a ha ↦ hsub a (by simp [ha])) (fun x hx ↦ hr x (.inl hx)) a ha
    · exact ihNext (fun a ha ↦ hsub a (by simp [ha])) (fun x hx ↦ hr x (.inr (.inl hx))) a ha
    · exact ihError (fun a ha ↦ hsub a (by simp [ha])) (fun x hx ↦ hr x (.inr (.inr hx))) a ha
    · exact ih (fun a ha ↦ hsub a (by simp [ha]))
        (fun x hx ↦ hroots x (List.mem_cons_of_mem _ hx)) a ha

/-- The rows of a tree with more than one job belong to one graph. -/
theorem DelayedTree.one_graph (h : DelayedTree env st root refs st')
    (hmany : 1 < (refs.filterMap st'.jobOf).length) : ∃ u, ∀ a ∈ refs, ∀ j row,
      st'.jobOf a = some j → st'.store.get? j = some row → row.graphUuid = some u := by
  have hcomp := h.compiles.1
  obtain ⟨below, rfl, hbelow⟩ := h.forest.links
  obtain ⟨u, _, hlinks, hrow⟩ := hcomp.graph List.mem_cons_self
  have hlinksEq := links_of_shape (hcomp.shape root) (hcomp.nextDelayables root)
    (hcomp.onErrorDelayables root)
  rw [hlinksEq] at hlinks
  cases u with
  | none =>
    -- Without a graph the root has no links, so its job is the only one.
    have hnil : (st.heap root).links = [] := List.eq_nil_iff_forall_not_mem.mpr fun x hx ↦ by
      cases (hlinks x hx).1
    rw [hnil] at hbelow
    cases hbelow
    have hle := List.length_filterMap_le st'.jobOf [root]
    exact absurd hmany (Nat.not_lt.mpr hle)
  | some u =>
    refine ⟨u, fun a ha j row hj hget ↦ ?_⟩
    rcases List.mem_cons.mp ha with rfl | hmem
    · exact hrow j row hj hget
    · obtain ⟨v, hv, _, hrow'⟩ := hcomp.graph ha
      have hgraph := hcomp.graphUuid hbelow (fun a ↦ List.mem_cons_of_mem _)
        (fun x hx ↦ (hlinks x hx).2) a hmem
      rw [hrow' j row hj hget, hv u hgraph]

/-! ### The declared order -/

/-- The jobs that `st'` has made of the schedulers `refs`, which are linked in `st`, keep the
declared order in the table `s`. -/
structure KeepsOrder (st st' : Session) (refs : List Ref) (s : Store) : Prop where
  /-- Every delayable has a job of its own, which is new. -/
  jobs : ∀ a ∈ refs, (st.heap a).IsDelayable → ∃ j, st'.jobOf a = some j ∧
    st.store.get? j = none ∧ ∀ b ∈ refs, st'.jobOf b = some j → b = a
  onDone : ∀ p ∈ refs, ∀ x ∈ (st.heap p).nextDelayables, ∀ j ∈ st'.jobsOf x, s.Released j →
    ∀ q ∈ st'.jobsOf p, s.stateOf q = some .done
  onError : ∀ p ∈ refs, ∀ x ∈ (st.heap p).onErrorDelayables, ∀ j ∈ st'.jobsOf x, s.Released j →
    ∃ q ∈ st'.jobsOf p, s.stateOf q = some .failed
  steps : ∀ p ∈ refs, ∀ delayables, (st.heap p).cls = .chain delayables → ∀ i x y q j,
    delayables[i]? = some x → delayables[i + 1]? = some y → st'.jobOf x = some q →
    st'.jobOf y = some j → s.Released j → s.stateOf q = some .done
  oneGraph : 1 < (refs.filterMap st'.jobOf).length → ∃ u, ∀ a ∈ refs, ∀ j,
    st'.jobOf a = some j → ∃ row, s.get? j = some row ∧ row.graphUuid = some u

/-- A delayed tree without empty parts, whose on_error callbacks are delayables and groups,
keeps its order through every run of the workers. -/
theorem DelayedTree.keepsOrder {w w' : World} (h : DelayedTree env st root refs st')
    (hne : NonemptyParts st.heap refs)
    (herror : ∀ p ∈ refs, ∀ x ∈ (st.heap p).onErrorDelayables, ∀ delayables,
      (st.heap x).cls ≠ .chain delayables)
    (hw : w.store = st'.store) (hrun : WorkerRun w w') : KeepsOrder st st' refs w'.store := by
  have hcomp := h.compiles.1
  have hon {p : Ref} (hp : p ∈ refs) (delayables : List Ref)
      (hcls : (st'.heap p).cls = .chain delayables) : (st'.heap p).runOnFailure = false :=
    h.chain_onDone herror hp hcls
  constructor
  case jobs =>
    intro a ha hd
    obtain ⟨j, _, hj, _⟩ := hcomp.job ha ((isDelayable_of_shape (hcomp.shape a)).mpr hd)
    exact ⟨j, hj, (hcomp.fresh a ha j hj).2.1, fun b hb hjb ↦ hcomp.distinct b hb a ha j hjb hj⟩
  case onDone =>
    intro p hp x hx j hj hrel q hq
    obtain ⟨u, hnext, _⟩ := hcomp.callbacksWired hp
    have hxr := hcomp.mem_of_callback hp (.inl hx)
    have hopen := h.open_of_released_job hxr (h.decided hne hxr) (hon hxr) hw hrun hj hrel
    rw [hnext x (hcomp.nextDelayables p ▸ hx), Context.Open,
      if_neg (by simp [runOnFailure_prerequisites])] at hopen
    exact h.done_of_prerequisites hp (hon hp) hw hrun hopen hq
  case onError =>
    intro p hp x hx j hj hrel
    obtain ⟨u, _, herr⟩ := hcomp.callbacksWired hp
    have hxr := hcomp.mem_of_callback hp (.inr hx)
    have hopen := h.open_of_released_job hxr (h.decided hne hxr) (hon hxr) hw hrun hj hrel
    rw [herr x (hcomp.onErrorDelayables p ▸ hx), Context.Open, if_pos rfl] at hopen
    obtain ⟨q, hq, hfailed⟩ := hopen
    exact ⟨q, mem_jobsOf_of_waitsOn hq, hfailed⟩
  case steps =>
    intro p hp delayables hcls i x y q j hx hy hq hj hrel
    have hcls' := (chain_of_shape (hcomp.shape p) delayables).mpr hcls
    exact h.done_of_released_step hp hw hrun hcls' (hon hp delayables hcls') hx hy hq hj hrel
  case oneGraph =>
    intro hmany
    obtain ⟨u, hu⟩ := h.one_graph hmany
    refine ⟨u, fun a ha j hj ↦ ?_⟩
    obtain ⟨row, hrow⟩ := Option.isSome_iff_exists.mp (hcomp.fresh a ha j hj).2.2
    obtain ⟨row', hrow', hterms⟩ := hrun.terms (hw ▸ hrow)
    exact ⟨row', hrow', (congrArg Terms.graphUuid hterms).trans (hu a ha j row hj hrow)⟩

end Tree

/-- The session behind `delay` of a root. -/
def delayed (env : DelayEnv) (fuel : Nat) (root : Ref) (st : Session) : Option Session :=
  match (delay env fuel root st).run with
  | some (.ok (_, st')) => some st'
  | _ => none

/-- A computed session is the one behind a call that returns. -/
theorem returns_of_delayed {env : DelayEnv} {fuel : Nat} {root : Ref} {st st' : Session}
    (h : delayed env fuel root st = some st') :
    ∃ job, Returns (delay env fuel root) st job st' := by
  unfold delayed at h
  split at h
  · next job _ heq =>
    cases h
    exact ⟨job, heq⟩
  · cases h

/-- A computed tree without identity keys. -/
theorem delayedTree_of_delayed {env : DelayEnv} {fuel : Nat} {root : Ref} {refs : List Ref}
    {st st' : Session} (h : delayed env fuel root st = some st')
    (hvisited : visited st.heap fuel [root] = some refs) (hnodup : refs.Nodup)
    (hfresh : ∀ a ∈ refs, (st.heap a).context = {} ∧ (st.heap a).identityKey = none)
    (hnext : 0 < st.store.nextId) (hqueued : env.mustRunWithoutDelay = false) :
    DelayedTree env st root refs st' where
  forest := forest_of_visited hvisited
  nodup := hnodup
  unwired a ha := (hfresh a ha).1
  freeKeys a ha k hk := by
    rw [(hfresh a ha).2] at hk
    cases hk
  nextId := hnext
  queued := hqueued
  returns := ⟨fuel, returns_of_delayed h⟩

/-- A group of two jobs, a chain of two steps behind it, and a job for its failure. -/
def pairThenChain : Session where
  heap
    | 0 => { cls := .group [1, 2], nextDelayables := [3], onErrorDelayables := [6] }
    | 3 => { cls := .chain [4, 5] }
    | _ => { cls := .delayable { modelName := "res.partner", jobMethod := some "ping" } {} none }
  store := .empty

/-- Worker 0 runs both jobs of the group. -/
def runsPair : List Event := [
  .acquireJobLock { workerUuid := 0 } (fun _ ↦ none) fun _ ↦ false,
  .finalizeJob ⟨0, { workerUuid := 0 }, 1⟩ none,
  .acquireJobLock { workerUuid := 0 } (fun _ ↦ none) fun _ ↦ false,
  .finalizeJob ⟨2, { workerUuid := 0 }, 2⟩ none]

/-- Behind the completed group the first step of the chain has been released, and the
declared order has been kept. -/
theorem keepsOrder_pairThenChain : ∃ st' w w',
    DelayedTree {} pairThenChain 0 [0, 1, 2, 3, 4, 5, 6] st' ∧ w.store = st'.store ∧
      WorkerRun w w' ∧ w'.store.stateOf 3 = some .pending ∧
      w'.store.stateOf 4 = some .waiting ∧
      KeepsOrder pairThenChain st' [0, 1, 2, 3, 4, 5, 6] w'.store := by
  have hrun : ((delayed {} 6 0 pairThenChain).bind fun st' ↦
      (World.play [] { store := st'.store, now := 0 } runsPair).map fun (_, w') ↦
        (w'.store.stateOf 3, w'.store.stateOf 4)) = some (some .pending, some .waiting) := by
    decide +kernel
  obtain ⟨st', hdelay, hplay⟩ := Option.bind_eq_some_iff.mp hrun
  obtain ⟨⟨steps, w'⟩, hplay, hout⟩ := Option.map_eq_some_iff.mp hplay
  simp only [Prod.mk.injEq] at hout
  have htree := delayedTree_of_delayed hdelay
    (show visited _ 6 [0] = some [0, 1, 2, 3, 4, 5, 6] by decide) (by decide) (by decide)
    (by decide) rfl
  have hworkers := (World.workerPath_of_play .refl hplay).run
  refine ⟨st', _, w', htree, rfl, hworkers, hout.1, hout.2, htree.keepsOrder ?_ ?_ rfl hworkers⟩
  · intro p hp ds hds
    fin_cases hp <;> rcases hds with hds | hds <;> cases hds <;> exact List.cons_ne_nil _ _
  · intro p hp x hx ds hcls
    fin_cases hp <;> fin_cases hx
    cases hcls

end JobWorker
