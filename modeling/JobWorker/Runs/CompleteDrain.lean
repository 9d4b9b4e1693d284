import JobWorker.Cascades.WorkerDied
import JobWorker.Process

/-!
# The end of `process_jobs`

`process_jobs` returns when nothing was acquired and no job is active
(`job_worker/cli/worker.py:450–546`). `acquire_job_lock` acquires nothing also when it fails
a stale job that is out of retries (`job_worker/cli/worker.py:687–746`), and such a failure
can leave work behind, or release some.
-/

namespace JobWorker

open Relational QueueWorker Transition

/-- No row is locked by another transaction. -/
def unlocked : JobId → Bool := fun _ ↦ false

namespace WorkerConfig

variable (cfg : WorkerConfig)

/-- The row meets its own part of the acquire predicate behind the failure of `job`: it does
before, or waits on `job` and runs on failure. -/
def readyBehind (now : Time) (job : JobId) (r : Job) : Prop :=
  cfg.acquirable now r = true ∨
    r.isWaiting = true ∧ r.WaitsOn job ∧ r.runOnFailure = true ∧
      (r.scheduledAt.all fun t ↦ decide (t ≤ now)) = true

/-- The next acquisition fails a stale job that is out of retries, and another row is ready
behind this failure and within the limits of its channel. -/
def LeavesWork (limits : QueueLimits) (now : Time) (s : Store) : Prop :=
  ∃ job r, ∃ h : ReclaimExhausts cfg limits unlocked now s job r, ∃ i q, i ≠ job ∧
    s.get? i = some q ∧ cfg.readyBehind now job q ∧ cfg.throttled limits now h.failed q = false

end WorkerConfig

section Acquire

variable {cfg : WorkerConfig} {limits : QueueLimits} {now : Time} {s s' : Store}
  {job i : JobId} {r q : Job}

/-- The rows that the acquire query returns. -/
theorem mem_candidates : i ∈ cfg.candidates limits now s ↔
    ∃ r, s.get? i = some r ∧ cfg.acquirable now r = true ∧
      cfg.throttled limits now s r = false := by
  refine Table.mem_selectBy.trans ?_
  simp only [Bool.and_eq_true, Bool.not_eq_eq_eq_not, Bool.not_true]
  rfl

/-- The limits of a channel depend on the table by two counts. -/
theorem throttled_congr
    (hfresh : ∀ channel, cfg.freshRunning now s channel = cfg.freshRunning now s' channel)
    (hrecent : ∀ channel, WorkerConfig.recentStarts now s channel =
      WorkerConfig.recentStarts now s' channel) (hchannel : r.channel = q.channel) :
    cfg.throttled limits now s r = cfg.throttled limits now s' q := by
  simp only [WorkerConfig.throttled, hfresh, hrecent, hchannel]

/-- The cascade of an exhausted reclaim starts and ends no job, so that it leaves the limits
alone. -/
theorem throttled_cascadeWorkerDied (hchannel : r.channel = q.channel) :
    cfg.throttled limits now (cascadeWorkerDied now s job) r =
      cfg.throttled limits now s q := by
  have hstate (r : Job) (hw : r.isWaiting = true) :
      (r.state == .started) = false ∧ (r.state == .done) = false ∧
      ((workerDiedDependentRow now job r).state == .started) = false ∧
      ((workerDiedDependentRow now job r).state == .done) = false := by
    rw [Job.isWaiting_iff.mp hw]
    refine ⟨rfl, rfl, ?_⟩
    simp only [workerDiedDependentRow]
    split <;> exact ⟨rfl, rfl⟩
  have hchild (r : Job) (h : Store.isWaitingChild job r = true) := hstate r
    (Bool.and_eq_true_iff.mp h).2
  have hdependent (r : Job) (h : isWaitingDependent job r = true) := hstate r
    (Bool.and_eq_true_iff.mp h).1
  refine throttled_congr (fun channel ↦ ?_) (fun channel ↦ ?_) hchannel
  · refine (Table.count_updateWhere_congr _ _ _ _ fun i r h ↦ ?_).trans
      (Table.count_updateWhere_congr _ _ _ _ fun i r h ↦ ?_)
    · obtain ⟨h₁, _, h₂, _⟩ := hdependent r h
      simp [h₁, h₂]
    · obtain ⟨h₁, _, h₂, _⟩ := hchild r h
      simp [h₁, h₂]
  · refine (Table.count_updateWhere_congr _ _ _ _ fun i r h ↦ ?_).trans
      (Table.count_updateWhere_congr _ _ _ _ fun i r h ↦ ?_)
    · obtain ⟨h₁, h₂, h₃, h₄⟩ := hdependent r h
      simp [h₁, h₂, h₃, h₄]
    · obtain ⟨h₁, h₂, h₃, h₄⟩ := hchild r h
      simp [h₁, h₂, h₃, h₄]

/-- A row behind the cascade is acquirable exactly when it was ready behind the failure. -/
theorem acquirable_cascadeWorkerDied_iff :
    cfg.acquirable now (if q.isWaiting = true ∧ q.WaitsOn job then
      workerDiedDependentRow now job q else q) = true ↔ cfg.readyBehind now job q := by
  by_cases hw : q.isWaiting = true ∧ q.WaitsOn job
  · have hstate : q.state = .waiting := Job.isWaiting_iff.mp hw.1
    rw [if_pos hw]
    cases hrun : q.runOnFailure with
    | false =>
      simp [WorkerConfig.readyBehind, WorkerConfig.acquirable, workerDiedDependentRow, hstate,
        hrun]
    | true =>
      simp [WorkerConfig.readyBehind, WorkerConfig.acquirable, workerDiedDependentRow, hstate,
        hrun, hw]
  · rw [if_neg hw, WorkerConfig.readyBehind]
    exact (or_iff_left fun h ↦ hw ⟨h.1, h.2.1⟩).symm

/-- What an exhausted reclaim leaves to be acquired. -/
theorem ReclaimExhausts.mem_candidates_iff
    (h : ReclaimExhausts cfg limits unlocked now s job r) :
    i ∈ cfg.candidates limits now (cascadeWorkerDied now h.failed job) ↔
      ∃ q, i ≠ job ∧ s.get? i = some q ∧ cfg.readyBehind now job q ∧
        cfg.throttled limits now h.failed q = false := by
  rw [mem_candidates]
  by_cases hi : i = job
  · subst hi
    have hfailed : h.failed.get? i = some (workerDiedRow now r) := by rw [h.get?, if_pos rfl]
    refine iff_of_false ?_ fun ⟨_, hne, _⟩ ↦ hne rfl
    rintro ⟨q, hq, ha, _⟩
    rw [get?_cascadeWorkerDied hfailed, if_neg (by simp [workerDiedRow, Job.isWaiting])] at hq
    cases hq
    simp [WorkerConfig.acquirable, workerDiedRow] at ha
  · have hget : h.failed.get? i = s.get? i := by rw [h.get?, if_neg hi]
    cases hq : s.get? i with
    | none =>
      have hnone : (cascadeWorkerDied now h.failed job).get? i = none := by
        simp [cascadeWorkerDied, workerDiedDependents, workerDiedChildren, hget, hq]
      rw [hnone]
      simp
    | some q =>
      rw [get?_cascadeWorkerDied (hget.trans hq)]
      have hchannel : (if q.isWaiting = true ∧ q.WaitsOn job then
          workerDiedDependentRow now job q else q).channel = q.channel := by
        split <;> rfl
      simp only [Option.some.injEq, exists_eq_left', hi, ne_eq, not_false_eq_true, true_and,
        acquirable_cascadeWorkerDied_iff, throttled_cascadeWorkerDied hchannel]

/-- Without locked rows nothing is acquired when there is no candidate, or the first one is a
stale job out of retries. -/
theorem acquireUnlocked_eq_none
    (h : (acquireJobLock cfg limits unlocked now s).2 = none) :
    cfg.candidates limits now s = [] ∧ (acquireJobLock cfg limits unlocked now s).1 = s ∨
      ∃ job r, ReclaimExhausts cfg limits unlocked now s job r := by
  cases hf : (cfg.candidates limits now s).find? fun i ↦ !unlocked i with
  | none =>
    refine .inl ⟨?_, ?_⟩
    · rw [List.eq_nil_iff_forall_not_mem]
      intro i hi
      exact List.find?_eq_none.mp hf i hi rfl
    · unfold acquireJobLock
      rw [hf]
  | some job =>
    obtain ⟨r, hr, _⟩ := mem_candidates.mp (List.mem_of_find?_eq_some hf)
    rw [acquireJobLock_of_find hf hr, acquireRow] at h
    split at h
    · cases h
    · next hs =>
      split at h
      · next he => exact .inr ⟨job, r, hf, hr, not_not.mp hs, he⟩
      · cases h

/-- An acquisition that acquires nothing leaves nothing to be acquired exactly when it does
not leave work behind a failure. -/
theorem candidates_eq_nil_iff (h : (acquireJobLock cfg limits unlocked now s).2 = none) :
    cfg.candidates limits now (acquireJobLock cfg limits unlocked now s).1 = [] ↔
      ¬ cfg.LeavesWork limits now s := by
  rcases acquireUnlocked_eq_none h with ⟨hnil, hs⟩ | ⟨job, r, hex⟩
  · rw [hs]
    refine iff_of_true hnil ?_
    rintro ⟨job, r, hex, _⟩
    have hf := hex.find
    rw [hnil] at hf
    cases hf
  · rw [hex.acquire, List.eq_nil_iff_forall_not_mem]
    simp only [hex.mem_candidates_iff]
    constructor
    · rintro hnone ⟨job', r', hex', i, q, hi⟩
      have hjob : job' = job := Option.some.inj (hex'.find.symm.trans hex.find)
      subst hjob
      have hr : r' = r := Option.some.inj (hex'.row.symm.trans hex.row)
      subst hr
      exact hnone i ⟨q, hi⟩
    · rintro hleaves i ⟨q, hi⟩
      exact hleaves ⟨job, r, hex, i, q, hi⟩

end Acquire

namespace Process

/-- What happens during a call of `process_jobs` that nobody disturbs: besides its own steps,
time passes, and pool threads end or fire a timeout without a transaction. -/
inductive Undisturbed (limits : QueueLimits) : Move → Prop
  | tick (elapsed : Nat) : Undisturbed limits (.tick elapsed)
  | read : Undisturbed limits (.loop .read)
  | gate : Undisturbed limits (.loop (.gate (.ok true)))
  | acquireJob : Undisturbed limits (.acquireJob limits unlocked)
  | slept : Undisturbed limits (.loop .slept)
  | fire (a : Attempt) : Undisturbed limits (.fire a)
  | die (a : Attempt) : Undisturbed limits (.database (.die a))

/-- The move is a call of `_acquire_job`. -/
def isAcquisition : Move → Bool
  | .acquireJob _ _ => true
  | _ => false

/-- The process in front of its last call of `_acquire_job`. -/
def lastAcquisition (mid : List (Process × Move)) : Option Process :=
  (mid.find? fun q ↦ isAcquisition q.2).map Prod.fst

/-- The worker is not to stop, and where it looks for active jobs nothing has happened since
its last call of `_acquire_job`, which has acquired nothing. -/
structure Unstopped (cfg : MainLoopConfig) (limits : QueueLimits)
    (mid : List (Process × Move)) (p : Process) : Prop where
  running : p.loop.stop = false
  nothing : p.loop.pc = .activeCheck → ∃ v, lastAcquisition mid = some v ∧
    acquireJobLock cfg.toWorkerConfig limits unlocked v.world.now v.world.store =
      (p.world.store, none) ∧ p.world.now = v.world.now

section Call

variable {cfg : MainLoopConfig} {limits : QueueLimits} {p₀ p p' u : Process} {m : Move}
  {mid : List (Process × Move)}

/-- A move that leaves the main thread where it is and commits nothing. -/
theorem Unstopped.aside (h : Unstopped cfg limits mid p) (hm : isAcquisition m = false)
    (hpc : p'.loop.pc = p.loop.pc) (hstop : p'.loop.stop = p.loop.stop)
    (hstore : p'.world.store = p.world.store) (hnow : p'.world.now = p.world.now) :
    Unstopped cfg limits ((p, m) :: mid) p' where
  running := hstop.trans h.running
  nothing := by
    have hlast : lastAcquisition ((p, m) :: mid) = lastAcquisition mid := by
      simp [lastAcquisition, hm]
    rw [hpc, hstore, hnow, hlast]
    exact h.nothing

/-- A move that takes the main thread elsewhere. -/
theorem Unstopped.elsewhere (h : Unstopped cfg limits mid p) (hpc : p'.loop.pc ≠ .activeCheck)
    (hstop : p'.loop.stop = p.loop.stop) : Unstopped cfg limits ((p, m) :: mid) p' :=
  ⟨hstop.trans h.running, fun heq ↦ absurd heq hpc⟩

/-- Only the stop event sets the worker's flag. -/
theorem stop_next {s s' : QueueWorker} {a : LoopAction} (h : s.next cfg a = some s')
    (ha : a ≠ .stop) : s'.stop = s.stop := by
  cases effect_of_next h with
  | stop => exact absurd rfl ha
  | _ => rfl

/-- The main loop looks for active jobs when no job was acquired. -/
theorem acquired_none {s s' : QueueWorker} {job : Option JobId}
    (h : s.next cfg (.acquireJob (.ok job)) = some s') (hpc : s'.pc = .activeCheck) :
    job = none := by
  cases effect_of_next h with
  | acquired => cases hpc
  | notAcquired _ hr => rcases hr with hr | hr <;> cases hr; rfl
  | backOff _ hf | overslept _ hf => cases hf
  | shutdown => cases hpc

/-- No other step of the main thread leads to the look for active jobs. -/
theorem pc_ne_activeCheck {s s' : QueueWorker} {a : LoopAction} (h : s.next cfg a = some s')
    (hstop : a ≠ .stop) (hacquire : ∀ result, a ≠ .acquireJob result)
    (hfinish : ∀ job, a ≠ .finish job) : s'.pc ≠ .activeCheck := by
  intro hpc
  cases effect_of_next h with
  | stop => exact hstop rfl
  | finish => exact hfinish _ rfl
  | notAcquired => exact hacquire _ rfl
  | tick hb =>
    rw [show s.pc = .activeCheck from hpc] at hb
    cases hb
  | _ => cases hpc

/-- A step of the main loop that acquires nothing takes it elsewhere. -/
theorem Unstopped.elsewhere_of_next {a : LoopAction} (h : Unstopped cfg limits mid p)
    (hl : p.loop.next cfg a = some p'.loop) (hstop : a ≠ .stop)
    (hacquire : ∀ result, a ≠ .acquireJob result) (hfinish : ∀ job, a ≠ .finish job) :
    Unstopped cfg limits ((p, m) :: mid) p' :=
  h.elsewhere (pc_ne_activeCheck hl hstop hacquire hfinish) (stop_next hl hstop)

/-- Undisturbed moves keep track of the last acquisition. -/
theorem unstopped_step (hs : p.Step cfg m p') (hm : Undisturbed limits m)
    (h : Unstopped cfg limits mid p) : Unstopped cfg limits ((p, m) :: mid) p' := by
  cases hm with
  | tick elapsed => exact h.elsewhere_of_next (a := .tick elapsed) hs.loop nofun nofun nofun
  | read => exact h.elsewhere_of_next (a := .read) hs.loop nofun nofun nofun
  | gate => exact h.elsewhere_of_next (a := .gate (.ok true)) hs.loop nofun nofun nofun
  | slept => exact h.elsewhere_of_next (a := .slept) hs.loop nofun nofun nofun
  | acquireJob =>
    obtain ⟨s', hc, hw⟩ := (show p.world.Step (.acquireJobLock cfg.toWorkerConfig limits unlocked)
      p'.world from hs.world)
    cases hc
    have hl : p.loop.next cfg (.acquireJob (.ok
        (acquireJobLock cfg.toWorkerConfig limits unlocked p.world.now p.world.store).2)) =
        some p'.loop := hs.loop
    refine ⟨(stop_next hl nofun).trans h.running, fun hpc ↦ ⟨p, rfl, ?_, by rw [hw]; rfl⟩⟩
    have hnone := acquired_none hl hpc
    rw [hw]
    exact Prod.ext rfl hnone
  | fire a =>
    have hl : p'.loop = p.loop := hs.loop
    have hw : p'.world = p.world := hs.world
    exact h.aside rfl (by rw [hl]) (by rw [hl]) (by rw [hw]) (by rw [hw])
  | die a =>
    obtain ⟨s', hc, hw⟩ := (show p.world.Step (.die a) p'.world from hs.world)
    cases hc
    have hworld : p'.world.store = p.world.store ∧ p'.world.now = p.world.now := by
      rw [hw]
      exact ⟨rfl, rfl⟩
    obtain ⟨hl, _⟩ | ⟨b, hb, hl⟩ := hs.loop_cases
    · exact h.aside rfl (by rw [hl]) (by rw [hl]) hworld.1 hworld.2
    · obtain ⟨_, _, rfl⟩ := Option.map_eq_some_iff.mp hb
      obtain ⟨_, hl⟩ := Option.ite_none_right_eq_some.mp hl
      rw [Option.some.injEq] at hl
      exact h.aside rfl (by rw [← hl]; rfl) (by rw [← hl]; rfl) hworld.1 hworld.2

/-- Through an undisturbed call the worker keeps track of the last acquisition. -/
theorem unstopped_run (h : Transition.Run (· = p₀) (Step cfg) mid p)
    (hcalled : p₀.loop.pc = .slotCheck) (hrunning : p₀.loop.stop = false)
    (hmid : Transition.Guarded (fun _ m ↦ Undisturbed limits m) mid) :
    Unstopped cfg limits mid p := by
  induction h with
  | start h =>
    subst h
    exact ⟨hrunning, fun hpc ↦ by cases hcalled.symm.trans hpc⟩
  | step _ hs ih =>
    obtain ⟨hm, hmid⟩ := Transition.guarded_cons.mp hmid
    exact unstopped_step hs hm (ih hmid)

end Call

/-- `process_jobs` returns with a free slot and without active jobs behind an acquisition that
has acquired nothing. -/
theorem returns_cases {cfg : MainLoopConfig} {limits : QueueLimits} {p₀ p u : Process}
    {mid : List (Process × Move)}
    (h : Transition.Run (· = p₀) (Step cfg) ((u, .loop .read) :: mid) p)
    (hcalled : p₀.loop.pc = .slotCheck) (hrunning : p₀.loop.stop = false)
    (hmid : Transition.Guarded (fun _ m ↦ Undisturbed limits m) mid)
    (hreturned : p.loop.pc = .updateHeartbeats)
    (hfew : p.loop.activeJobIds.card < cfg.concurrency) :
    ∃ v, lastAcquisition mid = some v ∧
      acquireJobLock cfg.toWorkerConfig limits unlocked v.world.now v.world.store =
        (p.world.store, none) ∧ p.world.now = v.world.now := by
  obtain ⟨h, hs⟩ := Transition.run_cons.mp h
  have hu := unstopped_run h hcalled hrunning hmid
  have hw : p.world = u.world := hs.world
  have hl : u.loop.next cfg .read = some p.loop := hs.loop
  simp only [QueueWorker.next] at hl
  split at hl
  · rw [Option.some.injEq, QueueWorker.processJobs] at hl
    split at hl
    · next hfull =>
      rw [hu.running, Bool.false_eq_true, false_or] at hfull
      rw [← hl] at hfew
      exact absurd hfull (Nat.not_le_of_lt hfew)
    · rw [← hl] at hreturned
      cases hreturned
  · next hpc =>
    rw [hw]
    exact hu.nothing hpc
  · cases hl

/-- A call of `process_jobs` that nobody disturbs and that returns with a free slot leaves
nothing to be acquired exactly when its last acquisition does not leave work behind a failed
job. -/
theorem drained_iff {cfg : MainLoopConfig} {limits : QueueLimits} {p₀ p u : Process}
    {mid : List (Process × Move)}
    (h : Transition.Run (· = p₀) (Step cfg) ((u, .loop .read) :: mid) p)
    (hcalled : p₀.loop.pc = .slotCheck) (hrunning : p₀.loop.stop = false)
    (hmid : Transition.Guarded (fun _ m ↦ Undisturbed limits m) mid)
    (hreturned : p.loop.pc = .updateHeartbeats)
    (hfew : p.loop.activeJobIds.card < cfg.concurrency) :
    ∃ v, lastAcquisition mid = some v ∧
      (cfg.candidates limits p.world.now p.world.store = [] ↔
        ¬ cfg.LeavesWork limits v.world.now v.world.store) := by
  obtain ⟨v, hv, heq, hnow⟩ := returns_cases h hcalled hrunning hmid hreturned hfew
  refine ⟨v, hv, ?_⟩
  have hiff := candidates_eq_nil_iff (congrArg Prod.snd heq)
  rw [heq] at hiff
  rw [hnow]
  exact hiff

/-! ### Two calls -/

/-- Another worker. -/
def otherWorker : WorkerConfig := { workerUuid := 1 }

/-- Another worker takes a job twice and is gone; the worker is in front of `process_jobs`
when the job is stale and out of retries. -/
def outOfRetries (arrivals : List Move) : List Move :=
  [.database (.enqueue {}
      { modelName := "res.partner", methodName := "ping", maxRetries := some 1 }),
    .database (.acquireJobLock otherWorker (fun _ ↦ none) unlocked), .tick 70000000,
    .database (.acquireJobLock otherWorker (fun _ ↦ none) unlocked), .tick 70000000] ++
  arrivals ++ [.loop (.listen (.ok ())), .loop (.gate (.ok true)), .loop .checkRegistry]

/-- A call of `process_jobs` with one acquisition, up to its return. -/
def oneAcquisition : List Move :=
  [.loop .read, .loop (.gate (.ok true)), .acquireJob (fun _ ↦ none) unlocked]

/-- The call behind some arrivals, computed. -/
def callBehind (arrivals : List Move) :
    Option (Process × List (Process × Move) × Process × Process) :=
  (replay (next { workerUuid := 0 }) launched (outOfRetries arrivals)).bind fun r ↦
    (replay (next { workerUuid := 0 }) r.2 oneAcquisition).bind fun q ↦
      (next { workerUuid := 0 } q.2 (.loop .read)).map fun p ↦ (r.2, q.1, q.2, p)

/-- What is computed is an undisturbed call in a run. -/
theorem run_of_callBehind {arrivals : List Move} {p₀ u p : Process} {mid : List (Process × Move)}
    (h : callBehind arrivals = some (p₀, mid, u, p)) :
    (∃ past, Run { workerUuid := 0 } past p₀) ∧
      Transition.Run (· = p₀) (Step { workerUuid := 0 }) ((u, .loop .read) :: mid) p ∧
      Guarded (fun _ m ↦ Undisturbed (fun _ ↦ none) m) mid := by
  obtain ⟨r, hr, h⟩ := Option.bind_eq_some_iff.mp h
  obtain ⟨q, hq, h⟩ := Option.bind_eq_some_iff.mp h
  obtain ⟨t, ht, heq⟩ := Option.map_eq_some_iff.mp h
  cases heq
  have hbefore := run_of_replay hr
  have hcall : Transition.Run (· = r.2) (Step { workerUuid := 0 }) q.1 q.2 :=
    Run.of_replay step_of_next rfl hq
  refine ⟨⟨_, hbefore⟩, hcall.step (step_of_next ht), fun c hc ↦ ?_⟩
  have hm : c.2 ∈ oneAcquisition := by
    rw [← List.mem_reverse, ← actions_of_replay hq]
    exact List.mem_map_of_mem hc
  simp only [oneAcquisition, List.mem_cons, List.not_mem_nil, or_false] at hm
  rcases hm with hm | hm | hm
  · exact hm ▸ .read
  · exact hm ▸ .gate
  · exact hm ▸ .acquireJob

/-- A stale job out of retries that is alone leaves no work. -/
theorem drained_iff_alone : ∃ v : Process,
    (acquireJobLock { workerUuid := 0 } (fun _ ↦ none) unlocked v.world.now v.world.store).1.stateOf
      1 = some .failed ∧
    ¬ WorkerConfig.LeavesWork { workerUuid := 0 } (fun _ ↦ none) v.world.now v.world.store := by
  have hcall : (callBehind []).map (fun (p₀, mid, _, p) ↦
      (decide (p₀.loop.pc = .slotCheck ∧ p₀.loop.stop = false),
        decide (p.loop.pc = .updateHeartbeats ∧ p.loop.activeJobIds.card < 2),
        WorkerConfig.candidates { workerUuid := 0 } (fun _ ↦ none) p.world.now p.world.store,
        (lastAcquisition mid).map fun v ↦ (acquireJobLock { workerUuid := 0 } (fun _ ↦ none)
          unlocked v.world.now v.world.store).1.stateOf 1)) =
      some (true, true, [], some (some .failed)) := by
    decide +kernel
  obtain ⟨⟨p₀, mid, u, p⟩, hs, hp⟩ := Option.map_eq_some_iff.mp hcall
  simp only [Prod.mk.injEq, decide_eq_true_eq] at hp
  obtain ⟨⟨hcalled, hrunning⟩, ⟨hreturned, hfew⟩, hnil, hfailed⟩ := hp
  obtain ⟨_, hrun, hmid⟩ := run_of_callBehind hs
  obtain ⟨v, hv, hiff⟩ := drained_iff hrun hcalled hrunning hmid hreturned hfew
  rw [hv, Option.map_some, Option.some.injEq] at hfailed
  exact ⟨v, hfailed, hiff.mp hnil⟩

/-- A job that has arrived behind a stale job out of retries is left in the table. -/
theorem not_drained_arrival : ∃ (past mid : List (Process × Move)) (p₀ u p : Process),
    Run { workerUuid := 0 } past p₀ ∧
      Transition.Run (· = p₀) (Step { workerUuid := 0 }) ((u, .loop .read) :: mid) p ∧
      p₀.loop.pc = .slotCheck ∧ p₀.loop.stop = false ∧
      Guarded (fun _ m ↦ Undisturbed (fun _ ↦ none) m) mid ∧
      p.loop.pc = .updateHeartbeats ∧ p.loop.activeJobIds.card < 2 ∧
      WorkerConfig.candidates { workerUuid := 0 } (fun _ ↦ none) p.world.now p.world.store =
        [2] := by
  have hcall : (callBehind [.database (.enqueue {}
      { modelName := "res.partner", methodName := "ping" })]).map (fun (p₀, _, _, p) ↦
      (decide (p₀.loop.pc = .slotCheck ∧ p₀.loop.stop = false),
        decide (p.loop.pc = .updateHeartbeats ∧ p.loop.activeJobIds.card < 2),
        WorkerConfig.candidates { workerUuid := 0 } (fun _ ↦ none) p.world.now
          p.world.store)) = some (true, true, [2]) := by
    decide +kernel
  obtain ⟨⟨p₀, mid, u, p⟩, hs, hp⟩ := Option.map_eq_some_iff.mp hcall
  simp only [Prod.mk.injEq, decide_eq_true_eq] at hp
  obtain ⟨⟨hcalled, hrunning⟩, ⟨hreturned, hfew⟩, hleft⟩ := hp
  obtain ⟨⟨past, hpast⟩, hrun, hmid⟩ := run_of_callBehind hs
  exact ⟨past, mid, p₀, u, p, hpast, hrun, hcalled, hrunning, hmid, hreturned, hfew, hleft⟩

end Process

end JobWorker
