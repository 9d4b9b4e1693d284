import JobWorker.Transactions
import Mathlib.Data.Finset.Card

/-!
# When an on_done job is released in time

`_release_dependents` decrements a counter for every completion event and releases at
zero, and `_cascade_children_on_parent_success` releases a child whatever its counter
says (`models/queue_job.py:551–585,743–772`). Over whole runs the counter of a waiting
on_done job covers the dependencies that have not completed as long as no completion
counts twice; a second completion of one member stands in for another member, and either
axis releases a job that still waits on the other.
-/

namespace JobWorker
namespace World

open Relational

/-- Dependencies of a row that are not among the completed jobs. -/
def outstanding (done : List JobId) (r : Job) : Finset JobId :=
  r.dependencies.toFinset.filter fun d ↦ d ∉ done

/-- The parent and every dependency of a row have completed. -/
def PrerequisitesDone (done : List JobId) (r : Job) : Prop :=
  (∀ p, r.parentId = some p → p ∈ done) ∧ ∀ d ∈ r.dependencies, d ∈ done

/-- Row `i` is an on_done job that waits. -/
def Awaits (w : World) (i : JobId) (r : Job) : Prop :=
  w.store.get? i = some r ∧ r.isWaiting = true ∧ r.runOnFailure = false

/-- A manual requeue of job `i`. -/
def Requeues (e : Event) (i : JobId) : Prop := ∃ self, e = .buttonRequeue self ∧ i ∈ self

/-- An event moves a waiting on_done job to pending only behind all its prerequisites,
unless it requeues the job itself. -/
def ReleasesInTime (w : World) (e : Event) (w' : World) : Prop :=
  ∀ i r, w.Awaits i r → w'.store.stateOf i = some .pending → ¬ Requeues e i →
    PrerequisitesDone w'.completed r

/-- A completion of `jobs` counts against a waiting row what it may: its child cascade
finds the dependencies completed, the listed completions leave the counter enough for the
dependencies that remain, and a counter at zero finds the parent completed. -/
structure CountsRightly (w : World) (jobs : List JobId) (children : Prop) (r : Job) : Prop where
  child : r.ChildIn jobs children → ∀ d ∈ r.dependencies, d ∈ jobs ++ w.completed
  counted : 1 ≤ r.listed jobs → ¬ r.ChildIn jobs children →
    (∀ d ∈ r.dependencies, d ∈ jobs ++ w.completed) ∨
      ((outstanding (jobs ++ w.completed) r).card + r.listed jobs : Int) ≤
        r.pendingDependencyCount
  parent : r.ReleasedBy jobs → ∀ p, r.parentId = some p → p ∈ jobs ++ w.completed

/-- No completion counts twice, no axis releases ahead of the other, and `run_now`
postpones no job that still waits. -/
def CountsOnce (w : World) (e : Event) : Prop :=
  (∀ i r, w.Awaits i r → i ∉ completes e →
    ¬ w.store.Swept (completes e) (cascadesToChildren e) i →
    w.CountsRightly (completes e) (cascadesToChildren e) r) ∧
  ∀ job run r, e = .runNow job run → run.postpones → w.Awaits job r →
    PrerequisitesDone w.completed r

/-- The counter of every waiting on_done job covers its uncompleted dependencies. -/
def CountersCover (w : World) : Prop :=
  ∀ i r, w.Awaits i r → ((outstanding w.completed r).card : Int) ≤ r.pendingDependencyCount

section Outstanding

variable {done done' : List JobId} {a b r : Job}

/-- More completions leave fewer dependencies. -/
theorem outstanding_mono (h : ∀ d ∈ done, d ∈ done') :
    outstanding done' r ⊆ outstanding done r :=
  Finset.monotone_filter_right _ fun d _ hd hmem ↦ hd (h d hmem)

/-- Nothing outstanding: every dependency has completed. -/
theorem outstanding_eq_empty : outstanding done r = ∅ ↔ ∀ d ∈ r.dependencies, d ∈ done := by
  simp [outstanding, Finset.filter_eq_empty_iff]

/-- Equal wiring, equal outstanding dependencies. -/
theorem outstanding_of_wiring (h : a.wiring = b.wiring) :
    outstanding done a = outstanding done b := by
  have hd : a.dependencyJobIds = b.dependencyJobIds := congrArg Wiring.dependencyJobIds h
  simp only [outstanding, Job.dependencies, hd]

/-- A row lists as many dependencies as its new counter. -/
theorem card_outstanding_le : (outstanding done r).card ≤ r.dependencies.length :=
  (Finset.card_filter_le _ _).trans (List.toFinset_card_le _)

/-- A completion that the row does not list leaves its counter to cover. -/
theorem CountsRightly.covers {w : World} {jobs : List JobId} {children : Prop}
    (h : w.CountsRightly jobs children r) (hchild : ¬ r.ChildIn jobs children)
    (hcover : ((outstanding w.completed r).card : Int) ≤ r.pendingDependencyCount) :
    (outstanding (jobs ++ w.completed) r).card = 0 ∨
      ((outstanding (jobs ++ w.completed) r).card + r.listed jobs : Int) ≤
        r.pendingDependencyCount := by
  by_cases hl : 1 ≤ r.listed jobs
  · refine (h.counted hl hchild).imp_left fun hall ↦ ?_
    rw [outstanding_eq_empty.mpr hall, Finset.card_empty]
  · right
    have hz : r.listed jobs = 0 := by omega
    have hsub : outstanding (jobs ++ w.completed) r ⊆ outstanding w.completed r :=
      outstanding_mono fun d hd ↦ List.mem_append_right jobs hd
    have hle := Finset.card_le_card hsub
    omega

end Outstanding

section Step

variable {w w' : World} {e : Event} {s' : Store} {i : JobId} {r : Job}

/-- Behind a quiet event an on_done job waits as it did before. -/
theorem Awaits.before (h : (w.after e s').Awaits i r) (hq : Quiet (rewrites e) w.store s') :
    ∃ r₀, w.Awaits i r₀ ∧ r₀.wiring = r.wiring ∧
      r₀.pendingDependencyCount = r.pendingDependencyCount := by
  obtain ⟨hr, hw, hd⟩ := h
  obtain ⟨r₀, hr₀, hwire⟩ := hq.sameWiring.row_before hr
  obtain ⟨r₁, hr₁, hcount⟩ := hq.sameCounts.row_before hr
  rw [hr₀, Option.some.injEq] at hr₁
  subst hr₁
  refine ⟨r₀, ⟨hr₀, ?_, ?_⟩, hwire.symm, hcount.symm⟩
  · exact (Store.waiting_iff hr₀).mp (hq.waiting i ⟨r, hr, hw⟩)
  · rw [← hd, Job.runOnFailure_of_wiring hwire]

/-- Counters cover behind every event that counts rightly. -/
theorem CountersCover.after (hcover : w.CountersCover) (hg : w.CountsOnce e)
    (hc : w.Commits e s') : (w.after e s').CountersCover := by
  intro i r' haw
  show ((outstanding (completes e ++ w.completed) r').card : Int) ≤ r'.pendingDependencyCount
  cases hc.transaction with
  | quiet hnone hq =>
    obtain ⟨r, hr, hwire, hcount⟩ := haw.before hq
    rw [hnone, List.nil_append, ← outstanding_of_wiring hwire, ← hcount]
    exact hcover i r hr
  | insertion he hcreate =>
    subst he
    obtain ⟨hr', hw', hd'⟩ := haw
    rcases Store.get?_create_cases hcreate hr' with ⟨_, rfl⟩ | hr'
    · exact Int.ofNat_le.mpr card_outstanding_le
    · exact hcover i r' ⟨hr', hw', hd'⟩
  | completion hcomp =>
    obtain ⟨hr', hw', hd'⟩ := haw
    obtain ⟨r, hr, hwire⟩ := hcomp.sameWiring.row_before hr'
    have hi := hcomp.not_mem ⟨r', hr', hw'⟩
    have hw := (Store.waiting_iff hr).mp (hcomp.waiting i ⟨r', hr', hw'⟩)
    have haw : w.Awaits i r := ⟨hr, hw, by rw [← hd', Job.runOnFailure_of_wiring hwire]⟩
    have hs' : s'.stateOf i = some .waiting := by
      rw [Store.stateOf, show s'.get? i = some r' from hr', Option.map_some,
        Job.isWaiting_iff.mp hw']
    cases hcomp.row i r hi hr hw with
    | swept _ hs =>
      rw [hs'] at hs
      cases hs
    | settled _ _ hs =>
      rw [hs', haw.2.2] at hs
      cases hs
    | @counted r'' hns hnc hnr hr'' hw'' hwire'' hcount =>
      have heq : some r' = some r'' := hr'.symm.trans hr''
      cases heq
      have hbefore := hcover i r haw
      have hle := (hg.1 i r haw hi hns).covers hnc hbefore
      rw [Job.ReleasedBy] at hnr
      rw [outstanding_of_wiring hwire]
      omega

/-- A counter that covers and an event that counts rightly release no job too early. -/
theorem CountersCover.releasesInTime (hcover : w.CountersCover) (hrun : w.AttemptsRun)
    (hg : w.CountsOnce e) (hs : w.Step e w') : w.ReleasesInTime e w' := by
  obtain ⟨s', hc, rfl⟩ := hs
  intro i r haw hp hnr
  show PrerequisitesDone (completes e ++ w.completed) r
  have hp : s'.stateOf i = some .pending := hp
  have hstate : w.store.stateOf i = some .waiting := by
    rw [Store.stateOf, haw.1, Option.map_some, Job.isWaiting_iff.mp haw.2.1]
  have hd : w.store.OnDone i := (Store.onDone_iff haw.1).mpr haw.2.2
  cases hc.transaction with
  | quiet hnone hq =>
    by_cases hx : rewrites e i
    · cases hc with
      | buttonRequeue _ _ => exact absurd ⟨_, rfl, hx⟩ hnr
      | handleException ha _ =>
        -- The job of an attempt does not wait.
        obtain ⟨q, hq', hn⟩ := hrun _ ha
        have hx : i = _ := hx
        subst hx
        rw [haw.1, Option.some.injEq] at hq'
        rw [← hq', haw.2.1] at hn
        cases hn
      | runNow _ _ =>
        obtain ⟨rfl, hpost⟩ := hx
        rw [hnone, List.nil_append]
        exact hg.2 _ _ r rfl hpost haw
      | _ => exact hx.elim
    · rw [hq.notReleased i hx hd hp] at hstate
      cases hstate
  | insertion he hcreate =>
    rw [Store.stateOf, Store.get?_create_of_some hcreate haw.1, Option.map_some,
      Job.isWaiting_iff.mp haw.2.1] at hp
    cases hp
  | completion hcomp =>
    by_cases hi : i ∈ completes e
    · rw [hcomp.done i r hi haw.1] at hp
      cases hp
    · cases hcomp.row i r hi haw.1 haw.2.1 with
      | swept _ hs =>
        rw [hs] at hp
        cases hp
      | counted _ _ _ hr' hw' _ _ =>
        rw [Store.stateOf, hr', Option.map_some, Job.isWaiting_iff.mp hw'] at hp
        cases hp
      | settled hns hset hs =>
        have hright := hg.1 i r haw hi hns
        by_cases hchild : r.ChildIn (completes e) (cascadesToChildren e)
        · obtain ⟨_, p, hpmem, hpar⟩ := id hchild
          refine ⟨fun q hq ↦ ?_, hright.child hchild⟩
          rw [hpar, Option.some.injEq] at hq
          exact List.mem_append_left _ (hq ▸ hpmem)
        · have hrel := hset.resolve_left hchild
          refine ⟨hright.parent hrel, ?_⟩
          have hle := hright.covers hchild (hcover i r haw)
          have hrel := hrel.2
          rw [← outstanding_eq_empty, ← Finset.card_eq_zero]
          omega

/-- An event that completes nothing counts nothing. -/
theorem countsRightly_nil {children : Prop} : w.CountsRightly [] children r where
  child := by
    rintro ⟨_, p, hp, _⟩
    cases hp
  counted hl := absurd hl (by simp [Job.listed])
  parent h := absurd h.1 (by simp [Job.listed])

/-- Behind counters that cover, counting rightly is exactly what releases in time now and
keeps the counters to cover later. -/
theorem countsOnce_iff (hcover : w.CountersCover) (hrun : w.AttemptsRun) (hs : w.Step e w') :
    w.CountsOnce e ↔ w.ReleasesInTime e w' ∧ w'.CountersCover := by
  constructor
  · intro hg
    refine ⟨hcover.releasesInTime hrun hg hs, ?_⟩
    obtain ⟨s', hc, rfl⟩ := hs
    exact hcover.after hg hc
  obtain ⟨s', hc, rfl⟩ := hs
  rintro ⟨htime, hafter⟩
  refine ⟨fun i r haw hi hns ↦ ?_, fun job run r he hpost haw ↦ ?_⟩
  · by_cases hnone : completes e = []
    · rw [hnone]
      exact countsRightly_nil
    have hnr : ¬ Requeues e i := by
      rintro ⟨self, rfl, _⟩
      exact hnone rfl
    cases hc.transaction with
    | quiet hn _ => exact absurd hn hnone
    | insertion he _ => exact absurd (by rw [he]; rfl) hnone
    | completion hcomp =>
      cases hcomp.row i r hi haw.1 haw.2.1 with
      | swept h _ => exact absurd h hns
      | settled _ _ hstate =>
        rw [haw.2.2] at hstate
        obtain ⟨hpar, hdep⟩ := htime i r haw hstate hnr
        exact ⟨fun _ ↦ hdep, fun _ _ ↦ .inl hdep, fun _ ↦ hpar⟩
      | @counted r' _ hnc hnrel hr' hw' hwire hcount =>
        refine ⟨fun h ↦ absurd h hnc, fun _ _ ↦ .inr ?_, fun h ↦ absurd h hnrel⟩
        have hd : r'.runOnFailure = false := by
          rw [Job.runOnFailure_of_wiring hwire, haw.2.2]
        have hle := hafter i r' ⟨hr', hw', hd⟩
        rw [outstanding_of_wiring hwire, hcount] at hle
        have hle : ((outstanding (completes e ++ w.completed) r).card : Int) ≤
            r.pendingDependencyCount - r.listed (completes e) := hle
        omega
  · subst he
    have hcompl : completes (.runNow job run) = [] := by
      obtain ⟨exc, traceback, ho, _⟩ := id hpost
      rw [completes, ho]
    have hp : s'.stateOf job = some .pending := by
      cases hc with
      | runNow _ h => exact stateOf_runJob_of_postpones hpost h haw.1
    have hdone := htime job r haw hp (by rintro ⟨_, h, _⟩; cases h)
    have hsame : (w.after (.runNow job run) s').completed = w.completed := by
      show completes (.runNow job run) ++ w.completed = w.completed
      rw [hcompl, List.nil_append]
    rwa [hsame] at hdone

end Step

/-! ### Runs -/

/-- Counters cover in every run whose events count rightly. -/
theorem Reachable.countersCover {w : World} (h : Reachable CountsOnce w) :
    w.AttemptsRun ∧ w.CountersCover := by
  refine Reachable.invariant (P := fun w ↦ w.AttemptsRun ∧ w.CountersCover) ?_ ?_ h
  · refine fun now ↦ ⟨fun a ha ↦ (List.not_mem_nil ha).elim, fun i r haw ↦ ?_⟩
    have hr : Store.empty.get? i = some r := haw.1
    simp [Store.get?, Store.empty] at hr
  · rintro w e s' ⟨hrun, hcover⟩ hg hc
    exact ⟨hrun.after hc, hcover.after hg hc⟩

/-- **No premature release**: in a run whose events count every completion once, every
event releases on_done jobs in time. -/
theorem releasesInTime_of_countsOnce {w w' : World} {e : Event} (h : Reachable CountsOnce w)
    (hg : w.CountsOnce e) (hs : w.Step e w') : w.ReleasesInTime e w' :=
  h.countersCover.2.releasesInTime h.countersCover.1 hg hs

/-- Jobs 1 and 2, and job 3 that waits for both. -/
def pairWithBarrier : Except OrmError Store := do
  let ping : EnqueueArgs := { modelName := "res.partner", methodName := "ping" }
  let (s, _) ← JobWorker.enqueue {} 0 .empty ping
  let (s, _) ← JobWorker.enqueue {} 0 s ping
  let (s, _) ← JobWorker.enqueue {} 0 s { ping with dependencyJobIds := some [1, 2] }
  return s

/-- Three calls of `enqueue` build the pair with its barrier. -/
theorem reachable_pairWithBarrier (guard : World → Event → Prop) {s : Store}
    (hg : ∀ w env args, guard w (.enqueue env args)) (h : pairWithBarrier = .ok s) :
    ∃ w, Reachable guard w ∧ w.store = s ∧ w.now = 0 ∧ w.completed = [] := by
  obtain ⟨⟨s₁, a⟩, h₁, h⟩ := bind_eq_ok.mp h
  obtain ⟨⟨s₂, b⟩, h₂, h⟩ := bind_eq_ok.mp h
  obtain ⟨⟨s₃, c⟩, h₃, h⟩ := bind_eq_ok.mp h
  cases h
  have hw₀ : Reachable guard (World.init 0) := .init 0
  have hw₁ := hw₀.step (hg _ _ _) ⟨s₁, .enqueue h₁, rfl⟩
  have hw₂ := hw₁.step (hg _ _ _) ⟨s₂, .enqueue h₂, rfl⟩
  exact ⟨_, hw₂.step (hg _ _ _) ⟨_, .enqueue h₃, rfl⟩, rfl, rfl, rfl⟩

/-- The pair with its barrier, then two completions by hand. -/
def completedByHand (first second : JobId) : Except OrmError (Store × Store × Store) := do
  let s ← pairWithBarrier
  let s₁ ← JobWorker.buttonSetToDone 0 s [first]
  let s₂ ← JobWorker.buttonSetToDone 0 s₁ [second]
  return (s, s₁, s₂)

/-- Job 1 set to done twice releases job 3, although job 2 has not run. -/
theorem not_releasesInTime_memberTwice :
    ¬ ∀ (w w' : World) (e : Event), Reachable (fun _ _ ↦ True) w → w.Step e w' →
      w.ReleasesInTime e w' := by
  intro hall
  have hrun : (completedByHand 1 1).toOption.bind (fun (s, s₁, s₂) ↦ do
      let _ ← s.get? 1
      let _ ← s₁.get? 1
      let r ← s₁.get? 3
      return (r.isWaiting, r.runOnFailure, r.dependencies, ← s₂.stateOf 3)) =
      some (true, false, [1, 2], .pending) := by decide +kernel
  cases hc : completedByHand 1 1 with
  | error e => rw [hc] at hrun; cases hrun
  | ok out =>
    obtain ⟨s, s₁, s₂⟩ := out
    rw [hc] at hrun
    simp only [Except.toOption, Option.bind_some, Option.bind_eq_bind, Option.pure_def,
      Option.bind_eq_some_iff, Option.some.injEq, Prod.mk.injEq] at hrun
    obtain ⟨r₁, hr₁, r₁', hr₁', r, hr, st, hst, hw, hd, hdeps, rfl⟩ := hrun
    obtain ⟨_, h, hc⟩ := bind_eq_ok.mp hc
    obtain ⟨_, h₁, hc⟩ := bind_eq_ok.mp hc
    obtain ⟨_, h₂, hc⟩ := bind_eq_ok.mp hc
    cases hc
    obtain ⟨w, hw₀, rfl, hnow, hdone⟩ :=
      reachable_pairWithBarrier (fun _ _ ↦ True) (fun _ _ _ ↦ trivial) h
    have hexist : w.Exist [1] := by simpa [Exist] using ⟨r₁, hr₁⟩
    have hstep₁ : w.Step (.buttonSetToDone [1]) (w.after (.buttonSetToDone [1]) s₁) :=
      ⟨s₁, .buttonSetToDone hexist (by rwa [hnow]), rfl⟩
    have hw₁ := hw₀.step trivial hstep₁
    have hnow₁ : (w.after (.buttonSetToDone [1]) s₁).now = 0 := hnow
    have hexist₁ : (w.after (.buttonSetToDone [1]) s₁).Exist [1] := by
      simpa [Exist] using ⟨r₁', hr₁'⟩
    have htime := hall _ _ _ hw₁ ⟨s₂, .buttonSetToDone hexist₁ (by rwa [hnow₁]), rfl⟩
    obtain ⟨_, hdeps'⟩ := htime 3 r ⟨hr, hw, hd⟩ hst (by rintro ⟨_, h, _⟩; cases h)
    have hmem := hdeps' 2 (by simp [hdeps])
    simp [after, completes, hdone] at hmem

/-- A completion by hand counts rightly when a single job waits, has no parent, and keeps
a counter for what remains. -/
theorem countsOnce_buttonSetToDone {w : World} {self : List JobId} {k : JobId} {r : Job}
    (hone : w.store.jobs.select (fun _ q ↦ q.isWaiting) = [k]) (hr : w.store.get? k = some r)
    (hparent : r.parentId = none)
    (hcount : (∀ d ∈ r.dependencies, d ∈ self ++ w.completed) ∨
      ((outstanding (self ++ w.completed) r).card + r.listed self : Int) ≤
        r.pendingDependencyCount) : w.CountsOnce (.buttonSetToDone self) := by
  refine ⟨fun i q haw _ _ ↦ ?_, fun _ _ _ h ↦ by cases h⟩
  have hmem : i ∈ w.store.jobs.select fun _ q ↦ q.isWaiting :=
    Table.mem_select.mpr ⟨q, haw.1, haw.2.1⟩
  rw [hone, List.mem_singleton] at hmem
  have hq := haw.1
  rw [hmem, hr, Option.some.injEq] at hq
  subst hq
  refine ⟨fun h ↦ h.1.elim, fun _ _ ↦ hcount, fun _ p hp ↦ ?_⟩
  rw [hparent] at hp
  cases hp

/-- Jobs 1 and 2 set to done, each once: job 3 is released with the second. -/
theorem releasesInTime_of_countsOnce_eachMember :
    ∃ w w' : World, w.store.stateOf 3 = some .waiting ∧ w'.store.stateOf 3 = some .pending ∧
      w.ReleasesInTime (.buttonSetToDone [2]) w' := by
  have hrun : (completedByHand 1 2).toOption.bind (fun (s, s₁, s₂) ↦ do
      let _ ← s.get? 1
      let _ ← s₁.get? 2
      let q ← s.get? 3
      let r ← s₁.get? 3
      return ((s.jobs.select fun _ r ↦ r.isWaiting, s₁.jobs.select fun _ r ↦ r.isWaiting),
        q.wiring, q.pendingDependencyCount, r.state, ← s₂.stateOf 3)) =
      some (([3], [3]), ⟨none, some [1, 2], false, none⟩, 2, .waiting, .pending) := by
    decide +kernel
  cases hc : completedByHand 1 2 with
  | error e => rw [hc] at hrun; cases hrun
  | ok out =>
    obtain ⟨s, s₁, s₂⟩ := out
    rw [hc] at hrun
    simp only [Except.toOption, Option.bind_some, Option.bind_eq_bind, Option.pure_def,
      Option.bind_eq_some_iff, Option.some.injEq, Prod.mk.injEq] at hrun
    obtain ⟨r₁, hr₁, r₂, hr₂, q, hq, r, hr, st, hst, ⟨hone, hone₁⟩, hqw, hqc, hrs, rfl⟩ := hrun
    obtain ⟨_, h, hc⟩ := bind_eq_ok.mp hc
    obtain ⟨_, h₁, hc⟩ := bind_eq_ok.mp hc
    obtain ⟨_, h₂, hc⟩ := bind_eq_ok.mp hc
    cases hc
    have hrw : r.wiring = ⟨none, some [1, 2], false, none⟩ := by
      obtain ⟨r', hr', hsame⟩ := (sameWiring_buttonSetToDone h₁).row hq
      rw [hr, Option.some.injEq] at hr'
      rw [hr', hsame, hqw]
    have hqd : q.dependencies = [1, 2] :=
      congrArg (fun v : Wiring ↦ v.dependencyJobIds.getD []) hqw
    have hrd : r.dependencies = [1, 2] :=
      congrArg (fun v : Wiring ↦ v.dependencyJobIds.getD []) hrw
    have henqueue (w : World) (env : OrmEnv) (args : EnqueueArgs) :
        w.CountsOnce (.enqueue env args) :=
      ⟨fun _ _ _ _ _ ↦ countsRightly_nil, fun _ _ _ h ↦ by cases h⟩
    obtain ⟨w, hw₀, rfl, hnow, hdone⟩ := reachable_pairWithBarrier CountsOnce henqueue h
    have hg₁ : w.CountsOnce (.buttonSetToDone [1]) := by
      refine countsOnce_buttonSetToDone hone hq (congrArg Wiring.parentId hqw) (.inr ?_)
      have hlisted : q.listed [1] = 1 := by simp [Job.listed, Job.dependsOn, hqd]
      rw [hdone, hqc, hlisted, outstanding, hqd]
      decide
    have hw₁ := hw₀.step hg₁
      ⟨s₁, .buttonSetToDone (by simpa [Exist] using ⟨r₁, hr₁⟩) (by rwa [hnow]), rfl⟩
    have hg₂ : (w.after (.buttonSetToDone [1]) s₁).CountsOnce (.buttonSetToDone [2]) := by
      refine countsOnce_buttonSetToDone hone₁ hr (congrArg Wiring.parentId hrw) (.inl ?_)
      simp [hrd, after, completes]
    have hnow₁ : (w.after (.buttonSetToDone [1]) s₁).now = 0 := hnow
    have hstep₂ : (w.after (.buttonSetToDone [1]) s₁).Step (.buttonSetToDone [2])
        ((w.after (.buttonSetToDone [1]) s₁).after (.buttonSetToDone [2]) s₂) :=
      ⟨s₂, .buttonSetToDone (by simpa [Exist] using ⟨r₂, hr₂⟩) (by rwa [hnow₁]), rfl⟩
    refine ⟨_, _, ?_, hst, releasesInTime_of_countsOnce hw₁ hg₂ hstep₂⟩
    show s₁.stateOf 3 = some .waiting
    rw [Store.stateOf, hr, Option.map_some, hrs]

end World
end JobWorker
