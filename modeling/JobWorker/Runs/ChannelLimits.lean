import JobWorker.History
import JobWorker.RowEffects

/-!
# The limits of a channel

The concurrency and rate limits of `acquire_job_lock` count rows as they are
(`job_worker/cli/worker.py:605–646`): running jobs by their heartbeat, recent starts by
their state. Runs with one table of limits show when the counts bound what the limits are
meant to bound: a heartbeat may bring back a job whose slot has been given away, and a job
that has left `started` and `done` is no start any more.
-/

namespace JobWorker
namespace World

open Relational

/-- `COALESCE(limit, 1)`. -/
def capacity (limits : QueueLimits) (channel : String) : Int :=
  ((limits channel).map QueueLimit.limit).getD 1

/-- Acquires read the same limits and stale window. -/
def LimitedBy (limits : QueueLimits) (staleAfterSeconds : Int) : Event → Prop
  | .acquireJobLock cfg limits' _ => cfg.staleAfterSeconds = staleAfterSeconds ∧ limits' = limits
  | _ => True

/-! ### Concurrency -/

/-- The statement of a heartbeat matches row `i`. -/
def refreshes (w : World) : Event → JobId → Job → Bool
  | .heartbeatJob a, i, r => i == a.job && r.ownedBy a.cfg.workerUuid
  | .updateHeartbeats worker, i, r =>
    (w.activeJobIds worker).contains i && r.workerId == some worker
  | _, _, _ => false

section Concurrency

variable (cfg : WorkerConfig) (limits : QueueLimits) (w : World)

/-- Running jobs of a channel within the stale window. -/
def freshRunning (channel : String) : Nat := cfg.freshRunning w.now w.store (some channel)

/-- Running jobs of a channel outside the stale window that a heartbeat brings back. -/
def revived (e : Event) (channel : String) : Nat :=
  w.store.jobs.count fun i r ↦ w.refreshes e i r &&
    (r.channel == some channel && r.state == .started && !cfg.fresh w.now r)

/-- No channel runs more jobs than its limit. -/
def WithinLimits : Prop :=
  ∀ channel, (freshRunning cfg w channel : Int) ≤ capacity limits channel

/-- A heartbeat that brings jobs of a channel back finds their slots free. -/
def SlotsFree (e : Event) : Prop :=
  ∀ channel, revived cfg w e channel ≠ 0 →
    (freshRunning cfg w channel + revived cfg w e channel : Int) ≤ capacity limits channel

end Concurrency

section WithinLimits

variable {cfg : WorkerConfig} {limits : QueueLimits} {w : World} {e : Event} {s' : Store}
  {past : List (World × Event)} {channel : String} {i : JobId} {r r' : Job}

/-- The row condition of a running job. -/
theorem mem_freshRunning_iff {now : Time} :
    ((some channel).isSome && r.channel == some channel && r.state == .started &&
      cfg.fresh now r) = true ↔
      r.channel = some channel ∧ r.state = .started ∧ cfg.fresh now r = true := by
  simp [and_assoc]

/-- A row that is started behind an event was started before under the same heartbeat or
none, has been refreshed, or has just been acquired. -/
theorem RowEffect.started (h : RowEffect w e i r r') (hs : r'.state = .started) :
    (∃ cfg limits locked, e = .acquireJobLock cfg limits locked ∧
      (acquireJobLock cfg limits locked w.now w.store).2 = some i ∧
      cfg.throttled limits w.now w.store r = false) ∨
    r.state = .started ∧
      (w.refreshes e i r = true ∨ r'.heartbeat = r.heartbeat ∨ r'.heartbeat = none) := by
  cases h with
  | cascaded hc =>
    cases hc with
    | kept => exact .inr ⟨hs, .inr (.inl rfl)⟩
    | written _ _ _ _ hn => exact absurd hs hn
  | called _ hw => exact absurd hs hw.notStarted
  | @acquired cfg limits locked _ _ ho _ ht => exact .inl ⟨cfg, limits, locked, rfl, ho, ht⟩
  | heartbeatJob hown => exact .inr ⟨hs, .inl (by simp [refreshes, hown])⟩
  | updateHeartbeats hi hw => exact .inr ⟨hs, .inl (by simp [refreshes, hi, hw])⟩
  | handleTimeout => exact .inr ⟨hs, .inr (.inl rfl)⟩
  | clearWorkerOwnership => exact .inr ⟨hs, .inr (.inr rfl)⟩
  | workerDied | finalizeJob => cases hs
  | @handleException a exc =>
    revert hs
    cases dispositionOf a.cfg w.now exc r <;> exact fun hs ↦ by cases hs

/-- The clock does not go back. -/
theorem now_le_after : w.now ≤ (w.after e s').now := by
  cases e with
  | tick elapsed => exact Int.le_add_of_nonneg_right (Int.natCast_nonneg elapsed)
  | _ => exact Int.le_refl _

/-- A heartbeat that is fresh later is fresh now. -/
theorem fresh_of_le {now now' : Time} (hle : now ≤ now') (h : cfg.fresh now' r = true) :
    cfg.fresh now r = true := by
  simp only [WorkerConfig.fresh, Option.any_eq_true_iff_get, decide_eq_true_eq] at h ⊢
  obtain ⟨hsome, hlt⟩ := h
  exact ⟨hsome, Int.lt_of_le_of_lt (Int.sub_le_sub_right hle _) hlt⟩

/-- A running job behind an event that neither acquires nor refreshes it ran before. -/
theorem running_before (hc : w.Commits e s') (hr' : s'.get? i = some r')
    (hrun : r'.channel = some channel ∧ r'.state = .started ∧
      cfg.fresh (w.after e s').now r' = true)
    (hrefresh : ∀ r, w.store.get? i = some r → w.refreshes e i r = false) :
    (∃ r, w.store.get? i = some r ∧ r.channel = some channel ∧ r.state = .started ∧
      cfg.fresh w.now r = true) ∨
    ∃ cfg' limits' locked r, e = .acquireJobLock cfg' limits' locked ∧
      (acquireJobLock cfg' limits' locked w.now w.store).2 = some i ∧
      w.store.get? i = some r ∧ r.channel = some channel ∧
      cfg'.throttled limits' w.now w.store r = false := by
  obtain ⟨hch, hs, hf⟩ := hrun
  rcases hc.row_before hr' with ⟨r, hr, heffect⟩ | ⟨_, env, args, eta, _, rfl⟩
  · have hterms : r'.channel = r.channel := congrArg Terms.channel heffect.terms
    rcases heffect.started hs with ⟨cfg', limits', locked, he, ho, ht⟩ | ⟨hs₀, hbeat⟩
    · exact .inr ⟨cfg', limits', locked, r, he, ho, hr, hterms ▸ hch, ht⟩
    · have hf' := fresh_of_le now_le_after hf
      refine .inl ⟨r, hr, hterms ▸ hch, hs₀, ?_⟩
      rcases hbeat with hb | hb | hb
      · rw [hrefresh r hr] at hb
        cases hb
      · rwa [WorkerConfig.fresh, hb] at hf'
      · rw [WorkerConfig.fresh, hb] at hf'
        cases hf'
  · -- A new job is not started.
    rcases state_enqueueVals env w.now args eta with h | h <;> cases h.symm.trans hs

/-- The stale window is open: a heartbeat of this moment is fresh. -/
theorem fresh_now (r : Job) (now : Time) :
    cfg.fresh now { r with heartbeat := some now } = true := by
  simp only [WorkerConfig.fresh, Option.any_some, decide_eq_true_eq]
  apply Int.sub_lt_self
  exact Int.mul_pos (Int.lt_of_lt_of_le Int.one_pos cfg.one_le_staleAfterSeconds) (by decide)

/-- A heartbeat statement adds the rows that it brings back. -/
theorem freshRunning_heartbeats (s : Store) (now : Time) {p : JobId → Job → Bool}
    (hk : s.Keeps p fun _ r ↦ { r with heartbeat := some now }) :
    cfg.freshRunning now (s.update p (fun _ r ↦ { r with heartbeat := some now }) hk)
        (some channel) =
      cfg.freshRunning now s (some channel) + s.jobs.count fun i r ↦ p i r &&
        (r.channel == some channel && r.state == .started && !cfg.fresh now r) := by
  refine (Table.count_updateWhere_of_keeps s.jobs p _ _ fun i r _ hq ↦ ?_).trans ?_
  · rw [mem_freshRunning_iff] at hq ⊢
    exact ⟨hq.1, hq.2.1, fresh_now r now⟩
  · congr 2
    funext i r
    simp only [fresh_now, Option.isSome_some, Bool.true_and, Bool.and_true]
    cases p i r <;> cases r.channel == some channel <;> cases r.state == .started <;> simp

/-- No row is brought back by an event that is no heartbeat. -/
theorem revived_eq_zero (h : ∀ i r, w.refreshes e i r = false) : revived cfg w e channel = 0 := by
  have hle : revived cfg w e channel ≤ ([] : List JobId).length :=
    Table.count_le_length fun i r _ hp ↦ by
      rw [h, Bool.false_and] at hp
      cases hp
  exact Nat.le_zero.mp hle

/-- Running jobs behind an event: those of before, and at most one that has been acquired
within the limit of its channel. -/
theorem freshRunning_after (cfg : WorkerConfig) (channel : String) (hc : w.Commits e s')
    (hrefresh : ∀ i r, w.refreshes e i r = false) :
    freshRunning cfg (w.after e s') channel ≤ freshRunning cfg w channel ∨
    freshRunning cfg (w.after e s') channel ≤ freshRunning cfg w channel + 1 ∧
      ∃ cfg' limits' locked i r, e = .acquireJobLock cfg' limits' locked ∧
        w.store.get? i = some r ∧ r.channel = some channel ∧
        cfg'.throttled limits' w.now w.store r = false := by
  by_cases hacquired : ∃ cfg' limits' locked i r, e = .acquireJobLock cfg' limits' locked ∧
      (acquireJobLock cfg' limits' locked w.now w.store).2 = some i ∧
      w.store.get? i = some r ∧ r.channel = some channel ∧
      cfg'.throttled limits' w.now w.store r = false
  · obtain ⟨cfg', limits', locked, j, q, rfl, ho, hq, hch, ht⟩ := hacquired
    refine .inr ⟨?_, cfg', limits', locked, j, q, rfl, hq, hch, ht⟩
    suffices hle : freshRunning cfg (w.after (.acquireJobLock cfg' limits' locked) s') channel ≤
        (j :: w.store.jobs.select fun _ r ↦ (some channel).isSome && r.channel == some channel &&
          r.state == .started && cfg.fresh w.now r).length from hle
    refine Table.count_le_length fun i r' hr' hrun ↦ ?_
    rw [mem_freshRunning_iff] at hrun
    rcases running_before hc hr' hrun fun r _ ↦ hrefresh i r with
      ⟨r, hr, hold⟩ | ⟨_, _, _, _, he, ho', _⟩
    · exact List.mem_cons_of_mem j (Table.mem_select.mpr ⟨r, hr, mem_freshRunning_iff.mpr hold⟩)
    · cases he
      rw [ho, Option.some.injEq] at ho'
      exact ho' ▸ List.mem_cons_self
  · refine .inl (Table.count_le_length fun i r' hr' hrun ↦ ?_)
    rw [mem_freshRunning_iff] at hrun
    rcases running_before hc hr' hrun fun r _ ↦ hrefresh i r with
      ⟨r, hr, hold⟩ | ⟨cfg', limits', locked, r, h⟩
    · exact Table.mem_select.mpr ⟨r, hr, mem_freshRunning_iff.mpr hold⟩
    · exact absurd ⟨cfg', limits', locked, i, r, h⟩ hacquired

/-- Equal stale windows count the same rows. -/
theorem freshRunning_congr {cfg' : WorkerConfig}
    (h : cfg'.staleAfterSeconds = cfg.staleAfterSeconds) (now : Time) (s : Store) :
    cfg'.freshRunning now s = cfg.freshRunning now s := by
  funext channel
  unfold WorkerConfig.freshRunning WorkerConfig.fresh
  rw [h]

/-- A channel that does not throttle a job has a free slot. -/
theorem lt_capacity (h : cfg.throttled limits w.now w.store r = false)
    (hch : r.channel = some channel) :
    (freshRunning cfg w channel : Int) < capacity limits channel := by
  simp only [WorkerConfig.throttled, hch, Option.bind_some, Bool.not_eq_false',
    Bool.and_eq_true, decide_eq_true_eq] at h
  exact h.1

/-- A step keeps the limits exactly when a heartbeat brings back no job whose slot has been
given away. -/
theorem withinLimits_step (hw : WithinLimits cfg limits w)
    (hl : LimitedBy limits cfg.staleAfterSeconds e) (hc : w.Commits e s') :
    WithinLimits cfg limits (w.after e s') ↔ SlotsFree cfg limits w e := by
  by_cases hrefresh : ∀ i r, w.refreshes e i r = false
  · refine iff_of_true (fun channel ↦ ?_) fun channel hrev ↦ absurd (revived_eq_zero hrefresh) hrev
    rcases freshRunning_after cfg channel hc hrefresh with
      hle | ⟨hle, cfg', limits', locked, i, r, rfl, _, hch, ht⟩
    · exact Int.le_trans (Int.ofNat_le.mpr hle) (hw channel)
    · obtain ⟨hstale, rfl⟩ := hl
      have hlt := lt_capacity ht hch
      rw [freshRunning, freshRunning_congr hstale] at hlt
      exact Int.le_trans (Int.ofNat_le.mpr hle) hlt
  · -- The event is a heartbeat, which changes no count but by the rows that it brings back.
    have hcount : ∀ channel, freshRunning cfg (w.after e s') channel =
        freshRunning cfg w channel + revived cfg w e channel := by
      intro channel
      cases hc with
      | heartbeatJob => exact freshRunning_heartbeats w.store w.now fun _ _ _ _ ↦ ⟨rfl, id⟩
      | updateHeartbeats => exact freshRunning_heartbeats w.store w.now fun _ _ _ _ ↦ ⟨rfl, id⟩
      | tick | enqueue | acquireJobLock | handleTimeout | clearWorkerOwnership | die
      | finalizeJob | handleException | runNow | buttonSetToDone | buttonSetToFailed
      | buttonRequeue | buttonCancelled => exact absurd (fun _ _ ↦ rfl) hrefresh
    refine forall_congr' fun channel ↦ ?_
    rw [hcount, Int.natCast_add]
    by_cases hrev : revived cfg w e channel = 0
    · refine iff_of_true ?_ fun h ↦ absurd hrev h
      rw [hrev]
      exact hw channel
    · exact ⟨fun h _ ↦ h, fun h ↦ h hrev⟩

/-- A run keeps every channel within its limit in every world that it reaches exactly when
each of its heartbeats brings back only jobs whose slots are still free. -/
theorem withinLimits_iff (hlimits : ∀ channel l, limits channel = some l → 0 ≤ l.limit)
    (h : Trace past w) (hl : Each (fun _ _ ↦ LimitedBy limits cfg.staleAfterSeconds) past) :
    (WithinLimits cfg limits w ∧ ∀ p ∈ past, WithinLimits cfg limits p.1) ↔
      Each (fun _ ↦ SlotsFree cfg limits) past := by
  induction h with
  | init now =>
    refine iff_of_true ⟨fun channel ↦ ?_, by simp⟩ trivial
    have hcap : 0 ≤ capacity limits channel := by
      unfold capacity
      cases hl : limits channel with
      | none => exact Int.one_nonneg
      | some l => exact hlimits channel l hl
    exact hcap
  | @step past w w' e _ hs ih =>
    obtain ⟨s', hc, rfl⟩ := hs
    rw [List.forall_mem_cons, Each, ← ih hl.2]
    constructor
    · rintro ⟨hw', hw, hpast⟩
      exact ⟨(withinLimits_step hw hl.1 hc).mp hw', hw, hpast⟩
    · rintro ⟨hfree, hw, hpast⟩
      exact ⟨(withinLimits_step hw hl.1 hc).mpr hfree, hw, hpast⟩

end WithinLimits

/-! ### A late heartbeat -/

/-- Worker 0 acquires job 1 and job 2 after it, with `silence` microseconds between. -/
def twoJobs (silence : Nat) : List Event := [
  .enqueue {} { modelName := "res.partner", methodName := "ping" },
  .acquireJobLock { workerUuid := 0 } (fun _ ↦ none) fun _ ↦ false,
  .enqueue {} { modelName := "res.partner", methodName := "ping", priority := some 5 },
  .tick silence,
  .acquireJobLock { workerUuid := 0 } (fun _ ↦ none) fun _ ↦ false,
  .heartbeatJob ⟨1, { workerUuid := 0 }, 1⟩]

/-- The events of `twoJobs` read the default limits. -/
theorem limitedBy_twoJobs {silence : Nat} {past : List (World × Event)} {w : World}
    (h : script [] (init 0) (twoJobs silence) = some (past, w)) :
    Each (fun _ _ ↦ LimitedBy (fun _ ↦ none) 60) past := by
  refine each_of_script (show Each _ [] from trivial) h fun e he _ w ↦ ?_
  simp only [twoJobs, List.mem_cons, List.not_mem_nil, or_false] at he
  rcases he with rfl | rfl | rfl | rfl | rfl | rfl
  all_goals first | exact trivial | exact ⟨rfl, rfl⟩

/-- A heartbeat within the stale window keeps the slot of its job. -/
theorem withinLimits_iff_heartbeat : ∃ past w, Trace past w ∧
    freshRunning { workerUuid := 0 } w "root" = 1 ∧
    WithinLimits { workerUuid := 0 } (fun _ ↦ none) w := by
  have hrun : (script [] (init 0) (twoJobs 30000000)).map (fun (past, w) ↦
      (freshRunning { workerUuid := 0 } w "root", decide (Each (fun _ w e ↦
        w.store.jobs.count (fun i r ↦ w.refreshes e i r &&
          !WorkerConfig.fresh { workerUuid := 0 } w.now r) = 0) past))) = some (1, true) := by
    decide +kernel
  obtain ⟨⟨past, w⟩, hs, hw⟩ := Option.map_eq_some_iff.mp hrun
  simp only [Prod.mk.injEq, decide_eq_true_eq] at hw
  have hrun := trace_of_script (.init 0) hs
  refine ⟨past, w, hrun, hw.1,
    ((withinLimits_iff (by simp) hrun (limitedBy_twoJobs hs)).mpr ?_).1⟩
  refine hw.2.mono fun _ w e hnone channel hrev ↦ ?_
  -- No heartbeat of the run finds a row that is not fresh.
  refine absurd (Nat.le_zero.mp ?_) hrev
  rw [← hnone]
  refine Table.count_le_count _ _ _ fun i r h ↦ ?_
  simp only [Bool.and_eq_true] at h ⊢
  exact ⟨h.1, h.2.2⟩

/-- The heartbeat of a job that has been silent for longer than the stale window, whose
slot another job has taken. -/
theorem not_withinLimits_heartbeat : ¬ ∀ (cfg : WorkerConfig) (limits : QueueLimits)
    (past : List (World × Event)) (w : World),
    (∀ channel l, limits channel = some l → 0 ≤ l.limit) → Trace past w →
    Each (fun _ _ ↦ LimitedBy limits cfg.staleAfterSeconds) past → WithinLimits cfg limits w := by
  intro hall
  have hrun : (script [] (init 0) (twoJobs 100000000)).map (fun (_, w) ↦
      freshRunning { workerUuid := 0 } w "root") = some 2 := by decide +kernel
  obtain ⟨⟨past, w⟩, hs, hw⟩ := Option.map_eq_some_iff.mp hrun
  have hle := hall { workerUuid := 0 } (fun _ ↦ none) past w (by simp)
    (trace_of_script (.init 0) hs) (limitedBy_twoJobs hs) "root"
  rw [show freshRunning { workerUuid := 0 } w "root" = 2 from hw] at hle
  exact absurd hle (by decide)

/-! ### Rate -/

/-- The job of channel `channel` that an event acquires. -/
def acquiredIn (w : World) (channel : String) : Event → Option JobId
  | .acquireJobLock cfg limits locked =>
    (acquireJobLock cfg limits locked w.now w.store).2.filter fun i ↦
      (w.store.get? i).any fun r ↦ r.channel == some channel
  | _ => none

/-- Acquires read the same limits, and no call ends before it begins. -/
def ReadsLimits (limits : QueueLimits) (w : World) : Event → Prop
  | .acquireJobLock _ limits' _ => limits' = limits
  | e => w.now ≤ w.writeTime e

/-- When jobs of a channel were acquired, the newest first. -/
def starts (channel : String) (past : List (World × Event)) : List (Time × JobId) :=
  past.filterMap fun p ↦ (p.1.acquiredIn channel p.2).map fun i ↦ (p.1.now, i)

/-- Starts within the second that ends at `t`. -/
def startsWithin (channel : String) (past : List (World × Event)) (t : Time) :
    List (Time × JobId) :=
  (starts channel past).filter fun p ↦ decide (t - second < p.1) && decide (p.1 ≤ t)

/-- Row `i` is started or done. -/
def CountsAsStart (w : World) (i : JobId) : Prop :=
  ∃ r, w.store.get? i = some r ∧ (r.state = .started ∨ r.state = .done)

/-- The limiter sees every start of the last second when it acquires `j`: the jobs are
different, and all of them are still started or done. -/
def SeesStarts (channel : String) (past : List (World × Event)) (w : World) (j : JobId) : Prop :=
  (j :: (startsWithin channel past w.now).map Prod.snd).Nodup ∧
    ∀ p ∈ startsWithin channel past w.now, w.CountsAsStart p.2

/-- Where the limiter misses a start of the last second, fewer than `rate` have happened. -/
def MissesBelow (channel : String) (rate : Int) (past : List (World × Event)) (w : World)
    (e : Event) : Prop :=
  ∀ j, w.acquiredIn channel e = some j → ¬ SeesStarts channel past w j →
    ((startsWithin channel past w.now).length : Int) < rate

instance (w : World) (i : JobId) : Decidable (w.CountsAsStart i) :=
  decidable_of_iff ((w.store.get? i).any fun r ↦ r.state == .started || r.state == .done)
    (by simp [CountsAsStart, Option.any_eq_true])

instance (channel : String) (past : List (World × Event)) (w : World) (j : JobId) :
    Decidable (SeesStarts channel past w j) := by
  unfold SeesStarts
  infer_instance

instance (channel : String) (rate : Int) (past : List (World × Event)) (w : World) (e : Event) :
    Decidable (MissesBelow channel rate past w e) :=
  decidable_of_iff (∀ j ∈ (w.acquiredIn channel e).toList, ¬ SeesStarts channel past w j →
    ((startsWithin channel past w.now).length : Int) < rate) (by simp [MissesBelow])

/-- No window of one second has more than `rate` starts. -/
def WithinRate (channel : String) (rate : Int) (past : List (World × Event)) : Prop :=
  ∀ t, ((startsWithin channel past t).length : Int) ≤ rate

section WithinRate

variable {limits : QueueLimits} {channel : String} {rate : Int} {past : List (World × Event)}
  {w : World} {e : Event} {s' : Store} {j : JobId} {r : Job} {t : Time}

/-- An acquisition in a channel. -/
theorem acquiredIn_eq_some (h : w.acquiredIn channel e = some j) :
    ∃ cfg limits locked r, e = .acquireJobLock cfg limits locked ∧
      (acquireJobLock cfg limits locked w.now w.store).2 = some j ∧
      w.store.get? j = some r ∧ r.channel = some channel := by
  cases e with
  | acquireJobLock cfg limits locked =>
    obtain ⟨ho, hch⟩ := Option.filter_eq_some_iff.mp h
    obtain ⟨r, hr, hch⟩ := (Option.any_eq_true _ _).mp hch
    exact ⟨cfg, limits, locked, r, rfl, ho, hr, beq_iff_eq.mp hch⟩
  | _ => cases h

/-- The starts behind an event. -/
theorem starts_cons : starts channel ((w, e) :: past) =
    ((w.acquiredIn channel e).map fun i ↦ (w.now, i)).toList ++ starts channel past := by
  cases h : w.acquiredIn channel e <;> simp [starts, h]

/-- Every start is in the past, and its row has been dated since. -/
def StartsDated (channel : String) (past : List (World × Event)) (w : World) : Prop :=
  ∀ p ∈ starts channel past, p.1 ≤ w.now ∧
    ∃ r, w.store.get? p.2 = some r ∧ r.channel = some channel ∧ p.1 ≤ r.writeDate

/-- Starts keep their dates. -/
theorem StartsDated.after (h : StartsDated channel past w) (hg : w.ReadsLimits limits e)
    (hc : w.Commits e s') : StartsDated channel ((w, e) :: past) (w.after e s') := by
  have htime : w.now ≤ w.writeTime e := by
    cases e with
    | acquireJobLock => exact Int.le_refl _
    | _ => exact hg
  intro p hp
  rw [starts_cons, List.mem_append, Option.mem_toList, Option.map_eq_some_iff] at hp
  rcases hp with ⟨i, hi, rfl⟩ | hp
  · obtain ⟨cfg, limits', locked, r, rfl, ho, hr, hch⟩ := acquiredIn_eq_some hi
    obtain ⟨q, hq, _, _, _, hrow⟩ := acquireJobLock_eq_some ho
    obtain rfl : r = q := Option.some.inj (hr.symm.trans hq)
    cases hc with
    | acquireJobLock =>
      refine ⟨now_le_after, cfg.acquiredRow w.now r, (hrow i).trans (if_pos rfl), ?_, ?_⟩
      · rw [← hch]
        unfold WorkerConfig.acquiredRow
        split <;> rfl
      · unfold WorkerConfig.acquiredRow
        split <;> exact Int.le_refl _
  · obtain ⟨hle, r, hr, hch, hdate⟩ := h p hp
    obtain ⟨r', hr', heffect⟩ := hc.row hr
    refine ⟨Int.le_trans hle now_le_after, r', hr', ?_, ?_⟩
    · rw [← hch]
      exact congrArg Terms.channel heffect.terms
    · rcases heffect.writeDate with hd | hd
      · rwa [hd]
      · rw [hd]
        exact Int.le_trans hle htime

/-- A channel that does not throttle a job has started fewer than its rate. -/
theorem lt_rate {cfg : WorkerConfig} {l : QueueLimit}
    (h : cfg.throttled limits w.now w.store r = false) (hch : r.channel = some channel)
    (hl : limits channel = some l) (hrate : l.rateLimit = some rate) (hpos : 0 < rate) :
    (WorkerConfig.recentStarts w.now w.store (some channel) : Int) < rate := by
  simp only [WorkerConfig.throttled, hch, Option.bind_some, hl, hrate, Bool.not_eq_false',
    Bool.and_eq_true, Bool.or_eq_true, beq_iff_eq, decide_eq_true_eq] at h
  exact h.2.resolve_left (Int.ne_of_gt hpos)

/-- The limiter counts the starts that it sees. -/
theorem length_startsWithin_le (h : StartsDated channel past w)
    (hsees : SeesStarts channel past w j) :
    (startsWithin channel past w.now).length ≤
      WorkerConfig.recentStarts w.now w.store (some channel) := by
  rw [← List.length_map Prod.snd]
  refine Table.length_le_count (List.nodup_cons.mp hsees.1).2 fun i hi ↦ ?_
  obtain ⟨p, hp, rfl⟩ := List.mem_map.mp hi
  obtain ⟨r, hr, hstate⟩ := hsees.2 p hp
  obtain ⟨hmem, hwithin⟩ := List.mem_filter.mp hp
  obtain ⟨_, q, hq, hch, hdate⟩ := h p hmem
  obtain rfl : r = q := Option.some.inj (hr.symm.trans hq)
  rw [Bool.and_eq_true, decide_eq_true_eq] at hwithin
  refine ⟨r, hr, ?_⟩
  have hrecent := Int.lt_of_lt_of_le hwithin.1 hdate
  rcases hstate with hs | hs <;> simp [hch, hs, hrecent]

/-- An event without an acquisition starts nothing. -/
theorem startsWithin_of_none (h : w.acquiredIn channel e = none) :
    startsWithin channel ((w, e) :: past) t = startsWithin channel past t := by
  rw [startsWithin, starts_cons, h]
  rfl

/-- An acquisition starts its job within the windows that reach it. -/
theorem startsWithin_of_some (h : w.acquiredIn channel e = some j) :
    startsWithin channel ((w, e) :: past) t =
      if t - second < w.now ∧ w.now ≤ t then (w.now, j) :: startsWithin channel past t
      else startsWithin channel past t := by
  rw [startsWithin, starts_cons, h, Option.map_some, Option.toList_some, List.singleton_append,
    List.filter_cons]
  simp only [Bool.and_eq_true, decide_eq_true_eq]
  rfl

/-- A window that reaches beyond now holds no start that the last second does not hold. -/
theorem length_startsWithin_mono (h : StartsDated channel past w) (hle : w.now ≤ t) :
    (startsWithin channel past t).length ≤ (startsWithin channel past w.now).length := by
  rw [startsWithin, startsWithin, ← List.countP_eq_length_filter, ← List.countP_eq_length_filter]
  refine List.countP_mono_left fun p hp hwithin ↦ ?_
  rw [Bool.and_eq_true, decide_eq_true_eq, decide_eq_true_eq] at hwithin ⊢
  exact ⟨Int.lt_of_le_of_lt (Int.sub_le_sub_right hle second) hwithin.1, (h p hp).1⟩

/-- An acquire keeps the rate in every window exactly when fewer than `rate` starts are
behind it. -/
theorem withinRate_cons (hd : StartsDated channel past w) (h : w.acquiredIn channel e = some j) :
    WithinRate channel rate ((w, e) :: past) ↔ WithinRate channel rate past ∧
      ((startsWithin channel past w.now).length : Int) < rate := by
  have hnow : w.now - second < w.now := Int.sub_lt_self w.now (by decide)
  constructor
  · intro hw
    refine ⟨fun t ↦ Int.le_trans (Int.ofNat_le.mpr ?_) (hw t), ?_⟩
    · rw [startsWithin_of_some h]
      split
      · exact Nat.le_succ _
      · exact Nat.le_refl _
    · have hlast := hw w.now
      rw [startsWithin_of_some h, if_pos ⟨hnow, Int.le_refl _⟩, List.length_cons] at hlast
      exact Int.lt_of_add_one_le hlast
  · rintro ⟨hw, hlt⟩ t
    rw [startsWithin_of_some h]
    split
    · next ht =>
      have hmono := length_startsWithin_mono hd ht.2
      rw [List.length_cons]
      exact Int.le_trans (Int.add_le_add_right (Int.ofNat_le.mpr hmono) 1) hlt
    · exact hw t

/-- A run keeps every window of one second within the rate exactly when each of its
acquires that misses a start of the last second comes behind fewer than `rate` of them. -/
theorem withinRate_iff {l : QueueLimit} (hl : limits channel = some l)
    (hrate : l.rateLimit = some rate) (hpos : 0 < rate) (h : Trace past w)
    (hg : Each (fun _ ↦ ReadsLimits limits) past) :
    WithinRate channel rate past ↔ Each (MissesBelow channel rate) past := by
  suffices hboth : (WithinRate channel rate past ↔ Each (MissesBelow channel rate) past) ∧
      StartsDated channel past w from hboth.1
  refine h.invariant (P := fun past w ↦ (WithinRate channel rate past ↔
    Each (MissesBelow channel rate) past) ∧ StartsDated channel past w) hg
    (fun now ↦ ⟨?_, ?_⟩) fun past w e s' ih hg hc ↦ ⟨?_, ih.2.after hg hc⟩
  · exact iff_of_true (fun t ↦ Int.le_of_lt hpos) trivial
  · intro p hp
    cases hp
  · obtain ⟨ih, hd⟩ := ih
    rw [Each, ← ih]
    cases ha : w.acquiredIn channel e with
    | none =>
      have hsame : WithinRate channel rate ((w, e) :: past) ↔ WithinRate channel rate past :=
        forall_congr' fun t ↦ by rw [startsWithin_of_none ha]
      rw [hsame, MissesBelow, ha]
      simp
    | some j =>
      rw [withinRate_cons hd ha, and_comm]
      refine and_congr_left fun _ ↦ ⟨fun hlt j _ _ ↦ hlt, fun hmiss ↦ ?_⟩
      by_cases hsees : SeesStarts channel past w j
      · obtain ⟨cfg, limits', locked, r, rfl, ho, hr, hch⟩ := acquiredIn_eq_some ha
        obtain rfl : limits' = limits := hg
        have hlt := lt_rate (acquirable_of_acquireJobLock ho hr).2 hch hl hrate hpos
        exact Int.lt_of_le_of_lt (Int.ofNat_le.mpr (length_startsWithin_le hd hsees)) hlt
      · exact hmiss j ha hsees

end WithinRate

/-! ### A start that is not counted -/

/-- One start a second and five jobs at a time. -/
def onePerSecond : QueueLimits := fun channel ↦
  if channel = "root" then some { limit := 5, rateLimit := some 1 } else none

/-- Worker 0 acquires job 1, the attempt ends with `outcome`, and a job is acquired again. -/
def twoStarts (outcome : Event) : List Event := [
  .enqueue {} { modelName := "res.partner", methodName := "ping" },
  .enqueue {} { modelName := "res.partner", methodName := "ping" },
  .acquireJobLock { workerUuid := 0 } onePerSecond fun _ ↦ false,
  outcome,
  .acquireJobLock { workerUuid := 0 } onePerSecond fun _ ↦ false]

/-- The events of `twoStarts` read the limit of one start a second. -/
theorem readsLimits_twoStarts {outcome : Event} {past : List (World × Event)} {w : World}
    (ho : ∀ w, ReadsLimits onePerSecond w outcome)
    (h : script [] (init 0) (twoStarts outcome) = some (past, w)) :
    Each (fun _ ↦ ReadsLimits onePerSecond) past := by
  refine each_of_script (show Each _ [] from trivial) h fun e he _ w ↦ ?_
  simp only [twoStarts, List.mem_cons, List.not_mem_nil, or_false] at he
  rcases he with rfl | rfl | rfl | rfl | rfl
  all_goals first | exact ho w | exact rfl | exact Int.le_refl _

/-- A job that is done counts as a start for a second. -/
theorem withinRate_iff_done : ∃ past w, Trace past w ∧ (starts "root" past).length = 1 ∧
    WithinRate "root" 1 past := by
  have hrun : (script [] (init 0) (twoStarts (.finalizeJob ⟨2, { workerUuid := 0 }, 1⟩ none))).map
      (fun (past, _) ↦ ((starts "root" past).length,
        decide (Each (MissesBelow "root" 1) past))) = some (1, true) := by decide +kernel
  obtain ⟨⟨past, w⟩, hs, hw⟩ := Option.map_eq_some_iff.mp hrun
  simp only [Prod.mk.injEq, decide_eq_true_eq] at hw
  have hrun := trace_of_script (.init 0) hs
  have hreads := readsLimits_twoStarts (fun _ ↦ Int.le_refl _) hs
  exact ⟨past, w, hrun, hw.1, (withinRate_iff (l := { limit := 5, rateLimit := some 1 }) rfl rfl
    (by decide) hrun hreads).mpr hw.2⟩

/-- A job whose first attempt fails at once makes room for another start. -/
theorem not_withinRate_retry : ¬ ∀ (limits : QueueLimits) (channel : String) (rate : Int)
    (l : QueueLimit) (past : List (World × Event)) (w : World), limits channel = some l →
    l.rateLimit = some rate → 0 < rate → Trace past w →
    Each (fun _ ↦ ReadsLimits limits) past → WithinRate channel rate past := by
  intro hall
  have hrun : (script [] (init 0) (twoStarts
      (.handleException ⟨2, { workerUuid := 0 }, 1⟩ .exception ""))).map (fun (past, _) ↦
      (startsWithin "root" past 0).length) = some 2 := by decide +kernel
  obtain ⟨⟨past, w⟩, hs, hw⟩ := Option.map_eq_some_iff.mp hrun
  have hle := hall onePerSecond "root" 1 { limit := 5, rateLimit := some 1 } past w rfl rfl
    (by decide) (trace_of_script (.init 0) hs)
    (readsLimits_twoStarts (fun _ ↦ Int.le_refl _) hs) 0
  rw [show (startsWithin "root" past 0).length = 2 from hw] at hle
  exact absurd hle (by decide)

end World
end JobWorker
