import JobWorker.Base.Selection
import JobWorker.Base.Turns
import JobWorker.Runs.CompleteDrain
import Mathlib.Data.Prod.Lex
import Mathlib.Order.WithBot

/-!
# Waiting for a worker

`acquire_job_lock` hands out ready jobs by priority, schedule and id
(`job_worker/cli/worker.py:597–762`). A ready job is passed over only for jobs that this order
puts before it, and each of them is then no longer ready.
-/

namespace JobWorker

open Relational Transition

/-- A missing schedule comes last. -/
def scheduleKey : Option Time → WithTop Time
  | some t => t
  | none => ⊤

/-- What the acquire query orders by. -/
def orderKey (a : JobId × Job) : Lex (Int × Lex (WithTop Time × JobId)) :=
  toLex (a.2.priority, toLex (scheduleKey a.2.scheduledAt, a.1))

/-- An earlier schedule is a smaller one. -/
theorem scheduledBefore_iff {a b : Option Time} :
    scheduledBefore a b ↔ scheduleKey a < scheduleKey b := by
  cases a with
  | none => exact iff_of_false id not_top_lt
  | some a =>
    cases b with
    | none => exact iff_of_true trivial (WithTop.coe_lt_top a)
    | some b => exact WithTop.coe_lt_coe.symm

/-- No two schedules are alike. -/
theorem scheduleKey_inj {a b : Option Time} : scheduleKey a = scheduleKey b ↔ a = b := by
  cases a with
  | none => cases b <;> simp [scheduleKey]
  | some a => cases b <;> simp [scheduleKey]

/-- The order of the acquire query is the lexicographic one. -/
theorem rowOrder_iff {a b : JobId × Job} : RowOrder a b ↔ orderKey a ≤ orderKey b := by
  rw [RowOrder, scheduledBefore_iff, ← scheduleKey_inj, orderKey, orderKey,
    Prod.Lex.toLex_le_toLex, Prod.Lex.toLex_le_toLex]

/-- Of two rows, one comes first. -/
instance : Std.Total RowOrder := ⟨fun a b ↦ by
  rw [rowOrder_iff, rowOrder_iff]
  exact le_total _ _⟩

/-- What comes before comes before everything behind. -/
instance : IsTrans (JobId × Job) RowOrder := ⟨fun a b c hab hbc ↦ by
  rw [rowOrder_iff] at *
  exact hab.trans hbc⟩

namespace World

variable (cfg : WorkerConfig) (limits : QueueLimits) (i : JobId)

/-- The acquire query returns the job. -/
def Ready (w : World) : Prop := i ∈ cfg.candidates limits w.now w.store

instance (w : World) : Decidable (w.Ready cfg limits i) := by unfold Ready; infer_instance

/-- Job `k` comes before job `i` in the order of the acquire query. -/
def before (w : World) (k : JobId) : Bool :=
  (w.store.get? k).any fun a ↦ (w.store.get? i).any fun b ↦ decide (RowOrder (k, a) (i, b))

/-- The other ready jobs that come before job `i`. -/
def ahead (w : World) : Finset JobId :=
  ((cfg.candidates limits w.now w.store).filter fun k ↦ k != i && w.before i k).toFinset

/-- The event is an acquisition by some worker. -/
def isAcquisition : Event → Bool
  | .acquireJobLock _ _ _ => true
  | _ => false

/-- Job `i` is pending and ready, and its row is not locked, but it is not handed out. -/
def PassesOver (w : World) : Event → Prop
  | .acquireJobLock cfg' limits' locked =>
    cfg'.staleAfterSeconds = cfg.staleAfterSeconds ∧ limits' = limits ∧ locked i = false ∧
      w.Ready cfg limits i ∧ w.store.stateOf i = some .pending ∧
      (acquireJobLock cfg' limits' locked w.now w.store).2 ≠ some i
  | _ => True

variable {cfg limits i} {w : World} {k : JobId}

/-- The acquire query of a worker depends on its staleness limit only. -/
theorem candidates_congr {cfg' : WorkerConfig}
    (h : cfg'.staleAfterSeconds = cfg.staleAfterSeconds) (now : Time) (s : Store) :
    cfg'.candidates limits now s = cfg.candidates limits now s := by
  have hstale : cfg'.stale = cfg.stale := by
    funext now r
    simp only [WorkerConfig.stale, h]
  have hfresh : cfg'.fresh = cfg.fresh := by
    funext now r
    simp only [WorkerConfig.fresh, h]
  unfold WorkerConfig.candidates WorkerConfig.acquirable WorkerConfig.throttled
    WorkerConfig.freshRunning
  rw [hstale, hfresh]

/-- The jobs ahead are ready. -/
theorem mem_ahead : k ∈ w.ahead cfg limits i ↔
    w.Ready cfg limits k ∧ k ≠ i ∧ w.before i k = true := by
  rw [ahead, List.mem_toFinset, List.mem_filter, Bool.and_eq_true, bne_iff_ne]
  rfl

/-- A row that has just been picked up is not acquirable. -/
theorem not_acquirable_of_heartbeat {now : Time} {r : Job} (hs : r.state = .started)
    (hh : r.heartbeat = some now) : cfg.acquirable now r = false := by
  have hpos := cfg.one_le_staleAfterSeconds
  have hstale : cfg.stale now r = false := by
    rw [WorkerConfig.stale, hh, Option.all_some, decide_eq_false_iff_not]
    unfold second
    dsimp only [Time]
    omega
  simp [WorkerConfig.acquirable, hs, hstale]

/-- The row that an acquisition locks is not ready behind it. -/
theorem not_ready_of_find {cfg' : WorkerConfig} {locked : JobId → Bool} {s : Store} {now : Time}
    (hf : (cfg'.candidates limits now s).find? (fun i ↦ !locked i) = some k) :
    ∀ r', (acquireJobLock cfg' limits locked now s).1.get? k = some r' →
      cfg.acquirable now r' = false := by
  intro r' hr'
  obtain ⟨r, hr, _⟩ := mem_candidates.mp (List.mem_of_find?_eq_some hf)
  have ha := WorkerConfig.isActive_of_acquirable
    (acquirable_of_mem_candidates (List.mem_of_find?_eq_some hf) hr)
  have hrow (f : Job → Job) (hkey : (f r).identityKey = r.identityKey) :
      (s.updateLocked k r hr ha f hkey).get? k = some (f r) :=
    (get?_updateLocked (i := k) hr ha f hkey).trans (if_pos rfl)
  rw [acquireJobLock_of_find hf hr, acquireRow] at hr'
  split at hr'
  · obtain rfl := Option.some.inj ((hrow (cfg'.pickupRow now) rfl).symm.trans hr')
    exact not_acquirable_of_heartbeat rfl rfl
  · split at hr'
    · have hkept : (cascadeWorkerDied now
          (s.updateLocked k r hr ha (workerDiedRow now) rfl) k).get? k =
            some (workerDiedRow now r) := by
        rw [get?_cascadeWorkerDied (hrow (workerDiedRow now) rfl), if_neg fun h ↦ by cases h.1]
      obtain rfl := Option.some.inj (hkept.symm.trans hr')
      rfl
    · obtain rfl := Option.some.inj ((hrow (cfg'.reclaimRow now) rfl).symm.trans hr')
      exact not_acquirable_of_heartbeat rfl rfl

/-- An acquisition that passes over a job takes one from ahead of it. -/
theorem exists_taken {e : Event} {s' : Store} (h : w.Commits e s')
    (he : isAcquisition e = true) (hp : w.PassesOver cfg limits i e) :
    ∃ k ∈ w.ahead cfg limits i, k ∉ (w.after e s').ahead cfg limits i := by
  cases h with
  | @acquireJobLock cfg' limits' locked =>
    obtain ⟨hstale, rfl, hunlocked, hready, hpending, hnot⟩ := hp
    have hmem : i ∈ cfg'.candidates limits' w.now w.store := by
      rw [candidates_congr hstale]
      exact hready
    cases hf : (cfg'.candidates limits' w.now w.store).find? fun i ↦ !locked i with
    | none =>
      have hlocked := List.find?_eq_none.mp hf i hmem
      rw [hunlocked] at hlocked
      exact absurd rfl hlocked
    | some k =>
      have hk : k ≠ i := by
        rintro rfl
        obtain ⟨r, hr, hs⟩ := Option.map_eq_some_iff.mp hpending
        apply hnot
        rw [acquireJobLock_of_find hf hr, acquireRow, if_pos (by rw [hs]; exact fun h ↦ by cases h)]
      obtain ⟨a, b, ha, hb, hle⟩ := Table.le_of_find?_selectBy hf hmem (by simp [hunlocked])
      refine ⟨k, mem_ahead.mpr ⟨?_, hk, ?_⟩, fun hk' ↦ ?_⟩
      · rw [Ready, ← candidates_congr hstale]
        exact List.mem_of_find?_eq_some hf
      · simp only [before, Store.get?, ha, hb, Option.any_some]
        exact decide_eq_true hle
      · obtain ⟨r', hr', hacq, _⟩ := mem_candidates.mp (mem_ahead.mp hk').1
        have hnone : cfg.acquirable w.now r' = false := not_ready_of_find hf r' hr'
        exact Bool.false_ne_true (hnone.symm.trans hacq)
  | _ => cases he

/-- **Bounded overtaking**: in any run of the system, a pending job that stays ready and
unlocked is passed over by acquisitions at most as often as there were ready jobs that come
before it, and that became ready before it since. -/
theorem acquisitions_le_ahead {w₀ : World} {mid : List (World × Event)}
    (h : Run (· = w₀) World.Step mid w)
    (hpassed : Guarded (fun w e ↦ w.PassesOver cfg limits i e) mid) :
    mid.countP (fun p ↦ isAcquisition p.2) + (w.ahead cfg limits i).card ≤
      (w₀.ahead cfg limits i).card + arrivals (fun w ↦ w.ahead cfg limits i) mid w := by
  apply h.turns_add_card_le
  intro p hp he w' hs
  obtain ⟨s', hc, rfl⟩ := hs
  exact exists_taken hc he (hpassed p hp)

/-- Two jobs alike. -/
def enqueuesTwice : List Event := List.replicate 2
  (.enqueue {} { modelName := "res.partner", methodName := "ping" })

/-- The first job is acquired ahead of the second. -/
theorem acquisitions_le_ahead_second : ∃ (w₀ w : World) (e : Event),
    Run (· = w₀) World.Step [(w₀, e)] w ∧ isAcquisition e = true ∧
    1 + (w.ahead { workerUuid := 0 } (fun _ ↦ none) 2).card ≤
      (w₀.ahead { workerUuid := 0 } (fun _ ↦ none) 2).card +
        arrivals (fun w ↦ w.ahead { workerUuid := 0 } (fun _ ↦ none) 2) [(w₀, e)] w := by
  have hrun : (script [] (init 0) enqueuesTwice).map (fun (_, w) ↦
      (decide (w.Ready { workerUuid := 0 } (fun _ ↦ none) 2), w.store.stateOf 2,
        (acquireJobLock { workerUuid := 0 } (fun _ ↦ none) (fun _ ↦ false) w.now w.store).2)) =
      some (true, some .pending, some 1) := by decide +kernel
  obtain ⟨⟨_, w₀⟩, _, hw⟩ := Option.map_eq_some_iff.mp hrun
  simp only [Prod.mk.injEq, decide_eq_true_eq] at hw
  obtain ⟨hready, hpending, hfirst⟩ := hw
  have hstep : w₀.Step (.acquireJobLock { workerUuid := 0 } (fun _ ↦ none) fun _ ↦ false) _ :=
    ⟨_, .acquireJobLock, rfl⟩
  have hpassed : w₀.PassesOver { workerUuid := 0 } (fun _ ↦ none) 2
      (.acquireJobLock { workerUuid := 0 } (fun _ ↦ none) fun _ ↦ false) := by
    refine ⟨rfl, rfl, rfl, hready, hpending, ?_⟩
    rw [hfirst]
    exact fun h ↦ by cases h
  have hrun : Run (· = w₀) World.Step [(w₀, _)] _ := .step (.start rfl) hstep
  refine ⟨w₀, _, _, hrun, rfl, ?_⟩
  exact acquisitions_le_ahead hrun (guarded_cons.mpr ⟨hpassed, fun _ hp ↦ by cases hp⟩)

end World
end JobWorker
