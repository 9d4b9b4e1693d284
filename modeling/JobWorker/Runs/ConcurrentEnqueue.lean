import JobWorker.DelayEffects
import JobWorker.Runs.OutcomeStatements

/-!
# Wiring a graph onto a running job

One transaction enqueues jobs that wait on an active job `d`, while another one records the
outcome of `d` and cascades it (`job_worker/models/queue_job.py:991–1054`,
`job_worker/delay.py:240–269`, `job_worker/cli/worker.py:1103–1130`). The cascade is driven
by the outcome alone and sees the new rows only from their commit on, so a job that is
committed behind it, or that names finished prerequisites only, waits for nothing.
-/

namespace JobWorker

open Delaying

/-! ### The enqueuing transaction -/

/-- Calls of `enqueue`, each on the rows that its transaction sees. -/
inductive Enqueues : Store → Store → Prop
  | refl {s : Store} : Enqueues s s
  | step {env : OrmEnv} {now : Time} {args : EnqueueArgs} {s s₁ s₂ : Store} {j : JobId} :
      Enqueues s s₁ → enqueue env now s₁ args = .ok (s₂, j) → Enqueues s s₂

/-- Calls one after another. -/
theorem Enqueues.trans {s s₁ s₂ : Store} (h : Enqueues s s₁) (h' : Enqueues s₁ s₂) :
    Enqueues s s₂ := by
  induction h' with
  | refl => exact h
  | step _ henq ih => exact (ih h).step henq

/-- `delay` of any graph is a sequence of calls of `enqueue`, unless jobs run without
delay. -/
theorem enqueues_delay {env : DelayEnv} {fuel : Nat} {r : Ref} {st st' : Session}
    {job : Option JobId} (hrun : env.mustRunWithoutDelay = false)
    (h : Returns (delay env fuel r) st job st') : Enqueues st.store st'.store := by
  have htracked : Tracked env fun st st' ↦ Enqueues st.store st'.store :=
    { refl := fun _ ↦ .refl
      trans := .trans
      assign := fun h _ ↦ by
        cases h
        exact .refl
      same := fun h ↦ by
        rw [h.2]
        exact .refl
      enqueueDelayable := fun h ↦ by
        obtain ⟨args, s, henq, _, hstore, _⟩ := enqueueDelayable_enqueue h
        rw [hstore]
        exact .step .refl henq
      runWithoutDelay := fun h ↦ by
        rw [runWithoutDelay, hrun, if_neg Bool.false_ne_true] at h
        obtain ⟨_, rfl⟩ := returns_pure.mp h
        exact .refl }
  exact htracked.keeping fuel r st job st' h

/-- Calls of `enqueue` keep the rows that there are, and their new rows are active. -/
theorem Enqueues.get? {s s' : Store} (h : Enqueues s s') (i : JobId) :
    (∀ r, s.get? i = some r → s'.get? i = some r) ∧
      (s.get? i = none → ∀ r, s'.get? i = some r → r.state.isActive = true) := by
  induction h with
  | refl => exact ⟨fun _ hr ↦ hr, fun hn r hr ↦ by rw [hn] at hr; cases hr⟩
  | step _ henq ih =>
    rcases enqueue_cases henq with ⟨rfl, _⟩ | ⟨eta, _, _, hcreate⟩
    · exact ih
    refine ⟨fun r hr ↦ ?_, fun hn r hr ↦ ?_⟩
    · exact Store.get?_create_of_some hcreate (ih.1 r hr)
    · rcases Store.get?_create_cases hcreate hr with ⟨_, rfl⟩ | hr
      · exact isActive_enqueueVals _ _ _ _
      · exact ih.2 hn r hr

/-- The rows that a transaction with this snapshot has added to its view `v` become visible
next to the rows of `s`. -/
def Publishes (snapshot v s s' : Store) : Prop :=
  ∀ i, s'.get? i = if (snapshot.get? i).isSome then s.get? i else v.get? i

/-! ### Interleavings with an outcome -/

/-- The interleavings of an enqueuing transaction with the one that records outcome `o` of
job `d`, from the committed table `s` to the table behind both commits. What `rest` of the
outcome is executed with table `seen` in sight, to which the rows in `added` are not yet
committed. -/
inductive Interleaving (now : Time) (d : JobId) (o : Outcome) (s : Store) :
    Work → Store → (JobId → Option Job) → Store → Prop
  /-- The rows are committed before the last statement of the outcome. -/
  | before {rest : Work} {s₁ v seen s' : Store} :
      Executes now d (.start o, s) (rest, s₁) → rest ≠ .commit → Enqueues s v →
      Publishes s v s₁ seen → Executes now d (rest, seen) (.commit, s') →
      Interleaving now d o s rest seen (fun _ ↦ none) s'
  /-- The rows are committed behind it; calls of `enqueue` behind the commit of the outcome
  see that. -/
  | behind {s₁ v s₂ s' : Store} :
      Executes now d (.start o, s) (.commit, s₁) → Enqueues s v → Publishes s v s₁ s₂ →
      Enqueues s₂ s' →
      Interleaving now d o s (.start o) s
        (fun i ↦ if (s.get? i).isSome then none else s'.get? i) s'

/-- No job waits with all its prerequisites finished. -/
def Store.NoneStranded (s : Store) : Prop :=
  ∀ i r, s.get? i = some r → r.isWaiting = true → ∃ p, r.WaitsOn p ∧ ¬ s.Finished p

/-- Every waiting job that the rest of the outcome does not see, or does not settle, has a
prerequisite that has not finished and that the outcome does not end. -/
def Work.Covers (d : JobId) (rest : Work) (seen : Store) (added : JobId → Option Job) : Prop :=
  ∀ i r, seen.get? i = some r ∧ ¬ rest.Settles d seen i ∨ added i = some r →
    r.isWaiting = true → ∃ p, r.WaitsOn p ∧ ¬ seen.Finished p ∧ ¬ rest.Ends d seen p

section Stranded

variable {now : Time} {d : JobId} {rest : Work} {seen s s₁ s' : Store}
  {added : JobId → Option Job} {settles ends : JobId → Prop}

/-- Rows added next to an effect have finished when they were seen and the effect says so. -/
theorem finished_of_effect (he : seen.Effect s₁ settles ends)
    (hold : ∀ i r, seen.get? i = some r → s'.get? i = s₁.get? i)
    (hnew : ∀ i, seen.get? i = none → ∀ r, s'.get? i = some r → r.state.isActive = true)
    (p : JobId) : s'.Finished p ↔ seen.Finished p ∨ ends p := by
  rw [← he.finished]
  cases hp : seen.get? p with
  | some r => rw [Store.Finished, Store.Finished, hold p r hp]
  | none =>
    refine iff_of_false ?_ ?_
    · rintro ⟨r, hr, ht⟩
      rw [JobState.isTerminal, hnew p hp r hr] at ht
      cases ht
    · rintro ⟨r, hr, _⟩
      rw [he.sameWiring.none hp] at hr
      cases hr

/-- Nothing is stranded behind an effect next to added rows exactly when every row that
still waits has a lasting prerequisite. -/
theorem noneStranded_iff_of_effect
    (he : seen.Effect s₁ (rest.Settles d seen) (rest.Ends d seen))
    (hold : ∀ i r, seen.get? i = some r → s'.get? i = s₁.get? i)
    (hadded : ∀ i r, added i = some r ↔ seen.get? i = none ∧ s'.get? i = some r)
    (hnew : ∀ i, seen.get? i = none → ∀ r, s'.get? i = some r → r.state.isActive = true) :
    s'.NoneStranded ↔ rest.Covers d seen added := by
  have hfinished := finished_of_effect he hold hnew
  have hlasting (p : JobId) : ¬ s'.Finished p ↔
      ¬ seen.Finished p ∧ ¬ rest.Ends d seen p := by rw [hfinished, not_or]
  constructor
  · rintro hnone i r (⟨hr, hn⟩ | hr) hw
    · obtain ⟨r', hr', hw'⟩ := (he.waiting i).mpr ⟨(Store.waiting_iff hr).mpr hw, hn⟩
      obtain ⟨q, hq, hwire⟩ := he.sameWiring.row hr
      rw [hr', Option.some.injEq] at hq
      rw [← hold i r hr] at hr'
      obtain ⟨p, hp, hlast⟩ := hnone i r' hr' hw'
      exact ⟨p, (Job.waitsOn_of_wiring (hq ▸ hwire)).mp hp, (hlasting p).mp hlast⟩
    · obtain ⟨p, hp, hlast⟩ := hnone i r ((hadded i r).mp hr).2 hw
      exact ⟨p, hp, (hlasting p).mp hlast⟩
  · intro hcovers i r' hr' hw'
    cases hr : seen.get? i with
    | none =>
      obtain ⟨p, hp, hlast⟩ := hcovers i r' (.inr ((hadded i r').mpr ⟨hr, hr'⟩)) hw'
      exact ⟨p, hp, (hlasting p).mpr hlast⟩
    | some r =>
      rw [hold i r hr] at hr'
      obtain ⟨hw, hn⟩ := (he.waiting i).mp ⟨r', hr', hw'⟩
      obtain ⟨q, hq, hwire⟩ := he.sameWiring.row hr
      rw [hr', Option.some.injEq] at hq
      obtain ⟨p, hp, hlast⟩ := hcovers i r (.inl ⟨hr, hn⟩) ((Store.waiting_iff hr).mp hw)
      exact ⟨p, (Job.waitsOn_of_wiring (hq ▸ hwire)).mpr hp, (hlasting p).mpr hlast⟩

end Stranded

/-- **Late rows**: behind both commits no job waits with all its prerequisites finished if
and only if every waiting job that the outcome's statements do not see or do not settle has
a prerequisite that has not finished and that the outcome does not end. -/
theorem noneStranded_iff_covers {now : Time} {d : JobId} {o : Outcome} {s seen s' : Store}
    {rest : Work} {added : JobId → Option Job}
    (hd : ∃ r, s.get? d = some r ∧ r.state.isActive = true)
    (h : Interleaving now d o s rest seen added s') :
    s'.NoneStranded ↔ rest.Covers d seen added := by
  cases h with
  | @before _ s₁ v _ _ hpre hrest henq hpub hpost =>
    have hrecorded : rest.Recorded d seen := by
      have hr := recorded_of_executes hpre hd
      obtain ⟨r, hrow, _⟩ := hd
      have hsame : seen.get? d = s₁.get? d := by
        rw [hpub, hrow, Option.isSome_some, if_pos rfl]
      cases rest with
      | commit => trivial
      | start o => exact hr.imp fun q hq ↦ ⟨hsame.trans hq.1, hq.2⟩
      | _ => exact hr.imp fun q hq ↦ ⟨hsame.trans hq.1, hq.2⟩
    have he := effect_of_rest hrecorded (executes_iff.mp hpost)
    refine noneStranded_iff_of_effect he (fun _ _ _ ↦ rfl) (fun i r ↦ ?_) fun i hn r hr ↦ ?_
    · simp only [reduceCtorEq, false_iff, not_and]
      intro hn hr
      rw [he.sameWiring.none hn] at hr
      cases hr
    · rw [he.sameWiring.none hn] at hr
      cases hr
  | @behind s₁ v s₂ _ hpre henq hpub hpost =>
    have hrec : (Work.start o).Recorded d s := hd
    have he := effect_of_rest hrec (executes_iff.mp hpre)
    refine noneStranded_iff_of_effect he (fun i r hr ↦ ?_) (fun i r ↦ ?_) fun i hn r hr ↦ ?_
    · obtain ⟨r₁, hr₁, _⟩ := he.sameWiring.row hr
      have h₂ : s₂.get? i = some r₁ := by rw [hpub, hr, Option.isSome_some, if_pos rfl, hr₁]
      rw [hr₁]
      exact (hpost.get? i).1 r₁ h₂
    · cases s.get? i <;> simp
    · have h₂ : s₂.get? i = v.get? i := by
        rw [hpub, hn, Option.isSome_none, if_neg Bool.false_ne_true]
      cases hv : v.get? i with
      | none => exact (hpost.get? i).2 (h₂.trans hv) r hr
      | some q =>
        have hq := (hpost.get? i).1 q (h₂.trans hv)
        rw [hr, Option.some.injEq] at hq
        exact hq ▸ (henq.get? i).2 hn q hv

section Lost

variable {now : Time} {d i : JobId} {o : Outcome} {s seen s' : Store} {rest : Work}
  {added : JobId → Option Job} {r : Job}

/-- A job that is committed too late for the outcome of `d`, and waits on `d` alone, is
stranded. -/
theorem not_noneStranded_of_late (hd : ∃ r, s.get? d = some r ∧ r.state.isActive = true)
    (h : Interleaving now d o s (.start o) s added s') (hr : added i = some r)
    (hw : r.isWaiting = true) (honly : ∀ p, r.WaitsOn p → p = d) : ¬ s'.NoneStranded := by
  rw [noneStranded_iff_covers hd h]
  intro hcovers
  obtain ⟨p, hp, _, hlast⟩ := hcovers i r (.inr hr) hw
  obtain rfl := honly p hp
  obtain ⟨q, hq, _⟩ := hd
  cases h with
  | before => cases hr
  | behind hpre =>
    cases o with
    | done | failed | workerDied => exact hlast (.inl rfl)
    | cancelled selected =>
      have hrest : (Work.start (.cancelled selected)).Rest now p s _ := executes_iff.mp hpre
      exact hlast ⟨⟨q, hq⟩, .inl hrest.1⟩

/-- A job that is wired onto finished jobs only is stranded, unless the outcome settles
it. -/
theorem not_noneStranded_of_finished
    (hd : ∃ r, s.get? d = some r ∧ r.state.isActive = true)
    (h : Interleaving now d o s rest seen added s')
    (hr : seen.get? i = some r ∧ ¬ rest.Settles d seen i ∨ added i = some r)
    (hw : r.isWaiting = true) (hall : ∀ p, r.WaitsOn p → seen.Finished p) :
    ¬ s'.NoneStranded := by
  rw [noneStranded_iff_covers hd h]
  intro hcovers
  obtain ⟨p, hp, hlast, _⟩ := hcovers i r hr hw
  exact hlast (hall p hp)

end Lost

/-! ### A group onto a running job -/

theorem import_ne_empty : "import" ≠ "" := by decide

/-- A running job with an identity key. -/
def importRunning : Job :=
  { payload := .ping, state := .started, identityKey := some ⟨"import", import_ne_empty⟩ }

/-- A delayable of the same method. -/
def importDelayable (key : Option String) : Scheduler where
  cls := .delayable { modelName := "res.partner", jobMethod := some "ping" }
    { identityKey := .value key } none

/-- A group of one delayable with that key at object 0, with one callback. -/
def importGroup : Session where
  heap r :=
    if r = 0 then { cls := .group [1], nextDelayables := [2] }
    else importDelayable (if r = 1 then some "import" else none)
  store := .ofRows [importRunning]

/-- The barrier of the group. -/
def importBarrier : Job :=
  { payload := .ping, state := .waiting, channel := some "root", graphUuid := some 0,
    dependencyJobIds := some [1], pendingDependencyCount := 1 }

/-- A table without row 0 whose next id is 3 holds at most two rows. -/
private theorem eq_of_row {s : Store} {i : Nat} {r : Job} (hr : s.get? i = some r)
    (hn : s.nextId ≤ 3) (h₀ : s.get? 0 = none) : i = 1 ∨ i = 2 := by
  have hlt : i < 3 := lt_of_lt_of_le (s.lt_nextId i r hr) hn
  have hne : i ≠ 0 := by
    rintro rfl
    rw [h₀] at hr
    cases hr
  omega

/-- The group is wired onto the running job. -/
theorem enqueues_importGroup : ∃ v, Enqueues (.ofRows [importRunning]) v ∧
    v.get? 1 = some importRunning ∧ v.get? 2 = some importBarrier ∧
    ∀ i r, v.get? i = some r → i = 1 ∨ i = 2 := by
  have heval : ((delay {} 4 0 importGroup).run.bind Except.toOption).map (fun out ↦
      ((out.2.store.get? 0, out.2.store.get? 1), out.2.store.get? 2, out.2.store.nextId)) =
        some ((none, some importRunning), some importBarrier, 3) := by
    decide +kernel
  obtain ⟨out, hout, hrows⟩ := Option.map_eq_some_iff.mp heval
  obtain ⟨result, hrun, hok⟩ := Option.bind_eq_some_iff.mp hout
  simp only [Prod.mk.injEq] at hrows
  obtain ⟨⟨h₀, h₁⟩, h₂, hn⟩ := hrows
  cases result with
  | error e => cases hok
  | ok pair =>
    cases hok
    have hdelay : Returns (delay {} 4 0) importGroup out.1 out.2 := hrun
    exact ⟨out.2.store, enqueues_delay rfl hdelay, h₁, h₂, fun i r hr ↦ eq_of_row hr hn.le h₀⟩

/-- The running job finishes, and its row is done. -/
theorem finalizeJob_importRunning : ∃ s, finalizeJob 0 none (.ofRows [importRunning]) 1 = .ok s ∧
    s.get? 1 = some (finalizedRow 0 none importRunning) := by
  have heval : (finalizeJob 0 none (.ofRows [importRunning]) 1).toOption.bind (·.get? 1) =
      some (finalizedRow 0 none importRunning) := by decide +kernel
  cases h : finalizeJob 0 none (.ofRows [importRunning]) 1 with
  | error e => rw [h] at heval; cases heval
  | ok s => exact ⟨s, rfl, by rw [h] at heval; exact heval⟩

/-- The group is wired while the job runs and committed behind its cascade. -/
theorem interleaving_importGroup :
    Interleaving 0 1 (.done none) (.ofRows [importRunning]) (.start (.done none))
      (.ofRows [importRunning])
      (fun i ↦ if ((Store.ofRows [importRunning]).get? i).isSome then none
        else (Store.ofRows [finalizedRow 0 none importRunning, importBarrier]).get? i)
      (.ofRows [finalizedRow 0 none importRunning, importBarrier]) := by
  obtain ⟨v, henq, _, hv₂, honly⟩ := enqueues_importGroup
  obtain ⟨s, hfin, hs₁⟩ := finalizeJob_importRunning
  refine .behind (executes_iff.mpr hfin) henq (fun i ↦ ?_) .refl
  by_cases h₁ : i = 1
  · subst h₁
    have hsome : ((Store.ofRows [importRunning]).get? 1).isSome = true := by decide +kernel
    rw [if_pos hsome, hs₁]
    decide +kernel
  have hold : (Store.ofRows [importRunning]).get? i = none := by
    cases hr : (Store.ofRows [importRunning]).get? i with
    | none => rfl
    | some r =>
      rcases eq_of_row hr (by decide +kernel) (by decide +kernel) with hi | rfl
      · exact absurd hi h₁
      · rw [show (Store.ofRows [importRunning]).get? 2 = none by decide +kernel] at hr
        cases hr
  rw [hold, Option.isSome_none, if_neg Bool.false_ne_true]
  by_cases h₂ : i = 2
  · subst h₂
    rw [hv₂]
    decide +kernel
  have hnone : v.get? i = none := by
    cases hr : v.get? i with
    | none => rfl
    | some r => exact ((honly i r hr).elim h₁ h₂).elim
  rw [hnone]
  cases hr : (Store.ofRows [finalizedRow 0 none importRunning, importBarrier]).get? i with
  | none => rfl
  | some r => exact ((eq_of_row hr (by decide +kernel) (by decide +kernel)).elim h₁ h₂).elim

/-- The barrier waits for good on the job that is done. -/
theorem not_noneStranded_importGroup :
    ¬ ∀ (now : Time) (d : JobId) (o : Outcome) (s seen s' : Store) (rest : Work)
      (added : JobId → Option Job), (∃ r, s.get? d = some r ∧ r.state.isActive = true) →
      s.NoneStranded → Interleaving now d o s rest seen added s' → s'.NoneStranded := by
  intro hall
  have hrow : (Store.ofRows [importRunning]).get? 1 = some importRunning := by decide +kernel
  have hstart : (Store.ofRows [importRunning]).NoneStranded := by
    intro i r hr hw
    rcases eq_of_row hr (by decide +kernel) (by decide +kernel) with rfl | rfl
    · rw [hrow] at hr
      cases hr
      cases hw
    · rw [show (Store.ofRows [importRunning]).get? 2 = none by decide +kernel] at hr
      cases hr
  have hend := hall 0 1 (.done none) _ _ _ _ _ ⟨_, hrow, rfl⟩ hstart interleaving_importGroup
  have hbarrier : (Store.ofRows [finalizedRow 0 none importRunning, importBarrier]).get? 2 =
      some importBarrier := by decide +kernel
  obtain ⟨p, hp, hlast⟩ := hend 2 importBarrier hbarrier rfl
  refine hlast ?_
  have hp : p = 1 := by simpa [Job.WaitsOn, Job.dependsOn, Job.dependencies, importBarrier] using hp
  subst hp
  have hdone : (Store.ofRows [finalizedRow 0 none importRunning, importBarrier]).get? 1 =
      some (finalizedRow 0 none importRunning) := by decide +kernel
  exact ⟨_, hdone, rfl⟩

/-- Committed before the outcome, the barrier is released. -/
theorem noneStranded_importGroup : ∃ v s',
    Interleaving 0 1 (.done none) (.ofRows [importRunning]) (.start (.done none)) v
      (fun _ ↦ none) s' ∧ s'.NoneStranded := by
  obtain ⟨v, henq, hv₁, hv₂, honly⟩ := enqueues_importGroup
  obtain ⟨s₁, hw⟩ : ∃ s₁, v.write 1 (finalizedRow 0 none) (fun _ ↦ rfl) = .ok s₁ :=
    Store.write_isOk_iff.mpr (Store.identityKeyDuplicate_of_active hv₁ rfl)
  have hfin : finalizeJob 0 none v 1 = .ok (cascadeSuccessToDependents 0 s₁ 1) :=
    bind_eq_ok.mpr ⟨s₁, hw, rfl⟩
  have hrow : (Store.ofRows [importRunning]).get? 1 = some importRunning := by decide +kernel
  have hpub : Publishes (.ofRows [importRunning]) v (.ofRows [importRunning]) v := fun i ↦ by
    cases hr : (Store.ofRows [importRunning]).get? i with
    | none => rw [Option.isSome_none, if_neg Bool.false_ne_true]
    | some r => rw [Option.isSome_some, if_pos rfl, (henq.get? i).1 r hr]
  have h : Interleaving 0 1 (.done none) (.ofRows [importRunning]) (.start (.done none)) v
      (fun _ ↦ none) _ := .before .refl nofun henq hpub (executes_iff.mpr hfin)
  refine ⟨v, _, h, (noneStranded_iff_covers ⟨_, hrow, rfl⟩ h).mpr ?_⟩
  rintro i r (⟨hr, hn⟩ | hr) hw
  · rcases honly i r hr with rfl | rfl
    · rw [hv₁] at hr
      cases hr
      cases hw
    · exact absurd (.inr (.inr (.inr ⟨importBarrier, hv₂, by decide⟩))) hn
  · cases hr

end JobWorker
