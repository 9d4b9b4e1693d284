import JobWorker.Cli.FleetHealth
import Mathlib.Tactic.Linarith

/-!
# The error streak and the degraded signal

The streak of a worker begins with the first database error that leaves
`_listen_and_serve` and is cleared at the end of a full cycle
(`job_worker/cli/worker.py:320–409`). An acquisition can fail without an exception that
gets so far, and can succeed long before the end of its cycle.
-/

namespace JobWorker

open Transition QueueWorker

/-- A database error has left `_listen_and_serve` by `t`, and no full cycle has been
completed since. -/
def FailingSince (t : Time) (past : List (QueueWorker × LoopAction)) : Prop :=
  ∃ later q earlier, past = later ++ q :: earlier ∧ q.2.failsDatabase = true ∧ q.1.now ≤ t ∧
    ∀ p ∈ later, p.2 ≠ .select (.ok ())

/-- The failure at `since` is reported for as long as it lasts: at every later reading the
worker has been in recovery since then, and the fleet is degraded behind the threshold. -/
def Reported (since : Time) (s : QueueWorker) : Prop :=
  ∀ t, s.now ≤ t → t - since ≤ s.secondsInDatabaseErrorRecovery t ∧
    ∀ f : FleetHealth, f.databaseUnhealthyAfterSeconds ≠ 0 →
      f.databaseUnhealthyAfterSeconds * second ≤ t - since →
      (f.watching s).fleetIsDegraded t = true

section Streak

variable {cfg : MainLoopConfig} {s s' v : QueueWorker} {a : LoopAction} {t : Time}
  {past mid : List (QueueWorker × LoopAction)}

/-- The start of the streak behind a step. -/
theorem streakStartedAt_next (h : s.next cfg a = some s') :
    s'.databaseErrorStreakStartedAt =
      if a.failsDatabase then s.databaseErrorStreakStartedAt <|> some s.now
      else if a = .select (.ok ()) then none else s.databaseErrorStreakStartedAt := by
  cases effect_of_next h with
  | backOff _ hf | overslept _ hf => rw [if_pos hf]; rfl
  | shutdown _ hl =>
    cases hl with
    | crashed hother =>
      have hf : a.failsDatabase ≠ true := fun hf ↦ by
        rcases LoopAction.failsDatabase_iff.mp hf with h | h <;> cases hother.symm.trans h
      have ha : a ≠ .select (.ok ()) := by
        rintro rfl
        cases hother
      rw [if_neg hf, if_neg ha]
      rfl
    | overflowed hf _ => rw [if_pos hf]; rfl
    | stopped heq _ => rcases heq with rfl | rfl <;> rfl
    | completed _ => rfl
  | notAcquired _ hr | beaten _ hr => rcases hr with rfl | rfl <;> rfl
  | _ => rfl

/-- The clock of a worker does not run back. -/
theorem now_le_next (h : s.next cfg a = some s') : s.now ≤ s'.now := by
  cases effect_of_next h with
  | tick => exact Int.le_add_of_nonneg_right (Int.natCast_nonneg _)
  | _ => exact le_rfl

/-- A worker starts without a streak. -/
theorem streakStartedAt_starts (h : s.Starts) : s.databaseErrorStreakStartedAt = none := by
  obtain ⟨now, stop, rfl⟩ := h
  cases stop <;> rfl

/-- A streak has begun in the past. -/
theorem streakStartedAt_le (h : LoopRun cfg past s) :
    ∀ t, s.databaseErrorStreakStartedAt = some t → t ≤ s.now := by
  refine h.always (P := fun s ↦ ∀ t, s.databaseErrorStreakStartedAt = some t → t ≤ s.now)
    (fun s hs t ht ↦ ?_) fun s a s' ih hs t ht ↦ ?_
  · cases (streakStartedAt_starts hs).symm.trans ht
  · have hnow := now_le_next hs
    rw [streakStartedAt_next hs] at ht
    split at ht
    · cases hstart : s.databaseErrorStreakStartedAt with
      | none =>
        rw [hstart] at ht
        cases ht
        exact hnow
      | some t' =>
        rw [hstart] at ht
        cases ht
        exact (ih _ hstart).trans hnow
    · split at ht
      · cases ht
      · exact (ih t ht).trans hnow

/-- One more step of a failing run. -/
theorem failingSince_cons : FailingSince t ((s, a) :: past) ↔
    (a.failsDatabase = true ∧ s.now ≤ t) ∨ (a ≠ .select (.ok ()) ∧ FailingSince t past) := by
  constructor
  · rintro ⟨later, q, earlier, heq, hq, hle, hlater⟩
    cases later with
    | nil =>
      cases heq
      exact .inl ⟨hq, hle⟩
    | cons p later =>
      cases heq
      exact .inr ⟨hlater _ List.mem_cons_self,
        later, q, earlier, rfl, hq, hle, fun p hp ↦ hlater p (List.mem_cons_of_mem _ hp)⟩
  · rintro (⟨hq, hle⟩ | ⟨ha, later, q, earlier, rfl, hq, hle, hlater⟩)
    · exact ⟨[], (s, a), past, rfl, hq, hle, fun _ hp ↦ absurd hp List.not_mem_nil⟩
    · refine ⟨(s, a) :: later, q, earlier, rfl, hq, hle, fun p hp ↦ ?_⟩
      rcases List.mem_cons.mp hp with rfl | hp
      · exact ha
      · exact hlater p hp

/-- The streak tells whether a run has been failing since `t`. -/
theorem failingSince_iff (h : LoopRun cfg past s) :
    FailingSince t past ↔ ∃ started, s.databaseErrorStreakStartedAt = some started ∧
      started ≤ t := by
  induction h with
  | start h =>
    rw [streakStartedAt_starts h]
    constructor
    · rintro ⟨later, q, earlier, heq, _⟩
      cases later <;> cases heq
    · rintro ⟨started, hs, _⟩
      cases hs
  | @step past s s' a h hs ih =>
    rw [failingSince_cons, ih, streakStartedAt_next hs]
    cases hf : a.failsDatabase with
    | false =>
      simp only [Bool.false_eq_true, false_and, false_or, if_false]
      by_cases ha : a = .select (.ok ())
      · simp [ha]
      · simp [ha]
    | true =>
      have ha : a ≠ .select (.ok ()) := by
        rintro rfl
        cases hf
      simp only [true_and, if_true, ne_eq, ha, not_false_eq_true]
      cases hstart : s.databaseErrorStreakStartedAt with
      | none => simp
      | some started =>
        have hle := streakStartedAt_le h _ hstart
        simp only [Option.orElse_eq_orElse, Option.orElse_eq_or, Option.some_or,
          Option.some.injEq, exists_eq_left']
        exact or_iff_right_of_imp fun hnow ↦ hle.trans hnow

/-- A failure is reported exactly when the streak has begun by then. -/
theorem reported_iff : Reported t s ↔
    ∃ started, s.databaseErrorStreakStartedAt = some started ∧ started ≤ t := by
  constructor
  · intro h
    -- A reading behind both times tells a streak that began later from this one.
    have hread := (h (max s.now (t + 1)) (le_max_left _ _)).1
    have hlt : t + 1 ≤ max s.now (t + 1) := le_max_right _ _
    unfold secondsInDatabaseErrorRecovery at hread
    split at hread
    · linarith
    · next started hstart =>
      refine ⟨started, hstart, ?_⟩
      rcases le_max_iff.mp hread with hread | hread <;> linarith
  · rintro ⟨started, hstart, hle⟩ u _
    have hsecs : u - t ≤ s.secondsInDatabaseErrorRecovery u := by
      unfold secondsInDatabaseErrorRecovery
      rw [hstart]
      exact le_max_of_le_right (sub_le_sub_left hle u)
    exact ⟨hsecs, fun f hf hthreshold ↦
      FleetHealth.fleetIsDegraded_of_le hf (hthreshold.trans hsecs)⟩

end Streak

/-- A failing acquisition is reported exactly while a database error that has left
`_listen_and_serve` by then is not followed by a full cycle. -/
theorem acquireFailureReported_iff {cfg : MainLoopConfig} {e : LoopError} {v s : QueueWorker}
    {past mid : List (QueueWorker × LoopAction)}
    (h : LoopRun cfg (mid ++ (v, .acquireJob (.error e)) :: past) s) :
    Reported v.now s ↔ FailingSince v.now (mid ++ (v, .acquireJob (.error e)) :: past) := by
  rw [reported_iff, failingSince_iff h]

/-- No `_acquire_job` succeeds: each raises a database error, of whatever kind. -/
def LoopAction.failsToAcquire : LoopAction → Bool
  | .acquireJob (.error e) => e != .other
  | .acquireJob (.ok _) => false
  | _ => true

/-- A session up to the first acquisition. -/
def session : List LoopAction :=
  [.listen (.ok ()), .gate (.ok true), .checkRegistry, .read, .gate (.ok true)]

/-- A lost connection is reported while the next acquisitions time out. -/
theorem acquireFailureReported_iff_connectionLost :
    ∃ past mid v s, LoopRun { workerUuid := 0 }
        (mid ++ (v, .acquireJob (.error .database)) :: past) s ∧
      s.now - v.now = 60 * second ∧ Reported v.now s := by
  have hreplay : (replayAround (next { workerUuid := 0 }) (create 0 false).run session
      (.acquireJob (.error .database)) (.waited :: (session ++
        [.acquireJob (.error .transient), .read, .tick 60000000]))).map (fun (r, q) ↦
      (decide (q.2.now - r.2.now = 60 * second),
        decide (∀ p ∈ q.1, p.2 ≠ .select (.ok ())))) = some (true, true) := by
    decide +kernel
  obtain ⟨⟨⟨earlier, v⟩, later, s⟩, hs, hr⟩ := Option.map_eq_some_iff.mp hreplay
  simp only [Prod.mk.injEq, decide_eq_true_eq] at hr
  have hrun := (Run.start ⟨0, false, rfl⟩ : LoopRun { workerUuid := 0 } [] _).replayAround id hs
  exact ⟨_, later, v, s, hrun, hr.1,
    (acquireFailureReported_iff hrun).mpr ⟨later, _, _, rfl, rfl, le_rfl, hr.2⟩⟩

/-- A cycle without active jobs whose acquisition runs into the statement timeout. -/
def timedOutCycle : List LoopAction :=
  [.read, .updateHeartbeats (.ok ()), .tick 30000000, .select (.ok ()), .gate (.ok true),
    .checkRegistry, .read, .gate (.ok true), .acquireJob (.error .transient)]

/-- Acquisitions that time out for five minutes leave no sign. -/
theorem not_acquireFailureReported_statementTimeouts :
    ∃ past mid v s, LoopRun { workerUuid := 0 }
        (mid ++ (v, .acquireJob (.error .transient)) :: past) s ∧
      (∀ p ∈ mid, p.2.failsToAcquire = true) ∧ s.now - v.now = 300 * second ∧
      s.secondsInDatabaseErrorRecovery s.now = 0 ∧
      ({ workerInstances := [s] } : FleetHealth).fleetIsDegraded s.now = false := by
  have hreplay : (replayAround (next { workerUuid := 0 }) (create 0 false).run session
      (.acquireJob (.error .transient)) (List.replicate 10 timedOutCycle).flatten).map
      (fun (r, q) ↦ (decide (q.2.now - r.2.now = 300 * second),
        q.2.databaseErrorStreakStartedAt,
        decide (∀ p ∈ q.1, p.2.failsToAcquire = true))) = some (true, none, true) := by
    decide +kernel
  obtain ⟨⟨⟨earlier, v⟩, later, s⟩, hs, hr⟩ := Option.map_eq_some_iff.mp hreplay
  simp only [Prod.mk.injEq, decide_eq_true_eq] at hr
  obtain ⟨hlate, hstart, hfails⟩ := hr
  have hrun := (Run.start ⟨0, false, rfl⟩ : LoopRun { workerUuid := 0 } [] _).replayAround id hs
  have hsecs : s.secondsInDatabaseErrorRecovery s.now = 0 := by
    rw [secondsInDatabaseErrorRecovery, hstart]
  refine ⟨_, later, v, s, hrun, hfails, hlate, hsecs, ?_⟩
  simp [FleetHealth.fleetIsDegraded, FleetHealth.failsOften, FleetHealth.retriesLong, hsecs,
    second]

end JobWorker
