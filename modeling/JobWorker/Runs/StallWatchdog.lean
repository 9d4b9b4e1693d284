import JobWorker.Cli.MainLoop
import Mathlib.Tactic.Ring
import Mathlib.Tactic.Linarith

/-!
# The stall watchdog

The supervisor terminates the process when `last_progress` is too old
(`job_worker/cli/runner.py:456–481`). Between two writes of it the main loop makes a few
calls more than twice as many as it takes jobs, so it is the jobs taken in a row that
decide whether a worker whose calls are all short can be killed.
-/

namespace JobWorker

open Transition QueueWorker

/-- `_check_worker_progress` terminates the process; `cli/runner.py:469–481`. -/
def WatchdogFires (workerStallTimeoutSeconds : Int) (s : QueueWorker) : Prop :=
  0 < workerStallTimeoutSeconds ∧ s.stop = false ∧ s.pc ≠ .ended ∧
    workerStallTimeoutSeconds * second < s.now - s.lastProgress

/-- Every call of the run, also the one that has not returned, is shorter than the `k`-th
part of the watchdog's limit. -/
def Brisk (k : Nat) (workerStallTimeoutSeconds : Int)
    (past : List (QueueWorker × LoopAction)) (s : QueueWorker) : Prop :=
  ∀ u ∈ states past s, k * (u.now - u.callStart) < workerStallTimeoutSeconds * second

section Calls

variable {cfg : MainLoopConfig} {s s' : QueueWorker} {a : LoopAction}
  {past : List (QueueWorker × LoopAction)}

/-- The calls since `last_progress` was written, with the one at this position, when no job
was taken since. -/
def Pc.callBound : Pc → Nat
  | gateAtTop | slotWait | backOff => 1
  | listen | checkRegistry | slotCheck => 2
  | gateBeforeAcquire => 3
  | acquireJob | activeCheck => 4
  | updateHeartbeats => 5
  | select => 6
  | shutdown | ended => 7

/-- The calls that have led to this position since the last job was taken. -/
def Pc.callFloor : Pc → Nat
  | gateBeforeAcquire => 1
  | acquireJob => 2
  | _ => 0

/-- A position in the loop of `run` is followed by at most one call. -/
theorem callBound_of_serving {pc : Pc} (h : pc.serving = true) : pc.callBound ≤ 6 := by
  cases pc with
  | shutdown | ended => cases h
  | _ => decide

/-- Two calls for each job taken, and a bounded number around them. -/
def Counted (s : QueueWorker) : Prop :=
  2 * s.taken + s.pc.callFloor ≤ s.calls ∧ s.calls ≤ 2 * s.taken + s.pc.callBound

/-- A step keeps the calls in proportion to the jobs taken. -/
theorem counted_next (h : s.next cfg a = some s') (hc : Counted s) : Counted s' := by
  obtain ⟨hlow, hup⟩ := hc
  cases effect_of_next h with
  | tick | stop | finish => exact ⟨hlow, hup⟩
  | leave hpc =>
    have hb : s.pc.callBound ≤ 4 := by rcases hpc with hpc | hpc <;> rw [hpc] <;> decide
    simp only [Counted, goto, Pc.blocking, Pc.callBound, Pc.callFloor, if_true]
    omega
  | closed hpc =>
    have hb : s.pc.callBound ≤ 3 := by rcases hpc with hpc | hpc <;> rw [hpc] <;> decide
    simp only [Counted, goto, upgradeGateIsOpen, Pc.blocking, Pc.callBound, Pc.callFloor,
      if_true]
    omega
  | wait | listened | completed | backOff =>
    simp [Counted, goto, advance, countDatabaseError, Pc.blocking, Pc.callBound,
      Pc.callFloor]
  | overslept =>
    simp [Counted, poolShutdown, goto, advance, countDatabaseError, Pc.blocking, Pc.callBound,
      Pc.callFloor]
  | shutdown hpc =>
    have hb := callBound_of_serving hpc
    simp only [Counted, poolShutdown, goto, withStreak, Pc.blocking, Pc.callBound,
      Pc.callFloor, if_true]
    omega
  | proceed hpc | relisten hpc | openAtTop hpc | openBeforeAcquire hpc | checked hpc
  | acquired hpc | notAcquired hpc | slept hpc | beaten hpc | ended hpc =>
    rw [hpc] at hlow hup
    simp only [Pc.callBound, Pc.callFloor] at hlow hup
    simp [Counted, goto, upgradeGateIsOpen, QueueWorker.checkRegistry, submit, Pc.blocking,
      Pc.callBound, Pc.callFloor]
    omega

/-- A worker has made its first call. -/
theorem counted_starts (h : s.Starts) : Counted s := by
  obtain ⟨now, stop, rfl⟩ := h
  cases stop <;> simp [run, create, goto, poolShutdown, Counted, Pc.blocking, Pc.callBound,
    Pc.callFloor]

/-- Between two writes of `last_progress` the loop makes at least two calls for each job it
takes, and at most seven more. -/
theorem calls_bounds (h : LoopRun cfg past s) :
    2 * s.taken ≤ s.calls ∧ s.calls ≤ 2 * s.taken + 7 := by
  obtain ⟨hlow, hup⟩ : Counted s :=
    h.always (fun _ ↦ counted_starts) fun _ _ _ hc hs ↦ counted_next hs hc
  have hb : s.pc.callBound ≤ 7 := by cases s.pc <;> decide
  omega

end Calls

section Clock

variable {cfg : MainLoopConfig} {s s' t : QueueWorker} {a : LoopAction}
  {past : List (QueueWorker × LoopAction)} {k : Nat} {limit : Int}

/-- The calls that have returned since `last_progress` was written have taken less than
their share of the limit, and reading under the lock takes no time. -/
structure Paced (k : Nat) (limit : Int) (s : QueueWorker) : Prop where
  elapsed : k * (s.callStart - s.lastProgress) + (if s.pc.blocking then limit else 0) ≤
    s.calls * limit
  instant : s.pc.blocking = false → s.callStart = s.now

/-- All calls that have begun have taken less than their share. -/
theorem Paced.age_le (h : Paced k limit s) (hb : k * (s.now - s.callStart) < limit) :
    k * (s.now - s.lastProgress) ≤ s.calls * limit := by
  have helapsed := h.elapsed
  have hsum : k * (s.now - s.lastProgress) =
      k * (s.callStart - s.lastProgress) + k * (s.now - s.callStart) := by ring
  cases hpc : s.pc.blocking with
  | true =>
    rw [hpc, if_pos rfl] at helapsed
    linarith
  | false =>
    rw [hpc, if_neg Bool.false_ne_true] at helapsed
    rw [h.instant hpc] at helapsed
    linarith

/-- The main thread proceeds in time. -/
theorem paced_goto (h : k * (t.now - t.lastProgress) ≤ t.calls * limit) (pc : Pc) :
    Paced k limit (t.goto pc) := by
  refine ⟨?_, fun _ ↦ rfl⟩
  show k * (t.now - t.lastProgress) + _ ≤ _
  cases hpc : pc.blocking with
  | true =>
    simp only [goto, hpc, if_true, Nat.cast_add, Nat.cast_one, add_mul, one_mul]
    linarith
  | false =>
    simp only [goto, hpc, Bool.false_eq_true, if_false]
    linarith

/-- Nothing has been spent behind a write of `last_progress`. -/
theorem paced_advance (t : QueueWorker) (pc : Pc) : Paced k limit (t.advance.goto pc) :=
  paced_goto (by simp [advance]) pc

/-- A step keeps the pace while the calls are short. -/
theorem paced_next (h : s.next cfg a = some s') (hp : Paced k limit s)
    (hb : k * (s.now - s.callStart) < limit) : Paced k limit s' := by
  have hage := hp.age_le hb
  cases effect_of_next h with
  | tick hpc => exact ⟨hp.elapsed, fun hn ↦ absurd (hn.symm.trans hpc) Bool.false_ne_true⟩
  | stop | finish => exact ⟨hp.elapsed, hp.instant⟩
  | wait | listened | completed | backOff => exact paced_advance _ _
  | overslept =>
    apply paced_goto
    simp [advance]
  | shutdown =>
    apply paced_goto
    exact hage
  | _ =>
    apply paced_goto
    exact hage

/-- A worker starts in pace. -/
theorem paced_starts (h : s.Starts) : Paced k limit s := by
  obtain ⟨now, stop, rfl⟩ := h
  unfold run
  split
  · exact paced_goto (by simp [create]) _
  · exact paced_goto (by simp [create]) _

/-- While every call is shorter than its share and there are at most `k` of them, the
watchdog does not fire. -/
theorem not_watchdogFires {secs : Int} (h : LoopRun cfg past s) (hpos : 0 < k)
    (hb : Brisk k secs past s) (hk : ∀ u ∈ states past s, u.calls ≤ k) :
    ∀ u ∈ states past s, ¬ WatchdogFires secs u := by
  have hg : Guarded (fun u _ ↦ k * (u.now - u.callStart) < secs * second) past :=
    fun p hp ↦ hb p.1 (mem_states_of_mem hp)
  have hpaced := h.invariant_states hg (P := Paced k (secs * second))
    (fun _ ↦ paced_starts) fun _ _ _ hu hu' hs ↦ paced_next hs hu hu'
  rintro u hu ⟨hsecs, _, _, hold⟩
  have hage := (hpaced u hu).age_le (hb u hu)
  have hcalls : (u.calls : Int) ≤ k := by exact_mod_cast hk u hu
  have hlimit : 0 ≤ secs * second := mul_nonneg hsecs.le (by decide)
  have hshare := mul_le_mul_of_nonneg_right hcalls hlimit
  have hkill := mul_lt_mul_of_pos_left hold (show (0 : Int) < k by exact_mod_cast hpos)
  linarith

end Clock

/-- Some number bounds the calls between two writes of `last_progress` over all the runs, and
the watchdog spares every worker whose calls are shorter than that part of its limit. -/
def Progresses (runs : Set (List (QueueWorker × LoopAction) × QueueWorker)) : Prop :=
  ∃ k, 0 < k ∧ ∀ r ∈ runs, (∀ u ∈ states r.1 r.2, u.calls ≤ k) ∧
    ∀ secs, Brisk k secs r.1 r.2 → ∀ u ∈ states r.1 r.2, ¬ WatchdogFires secs u

/-- The calls between two writes of `last_progress` are bounded exactly when the jobs taken
in a row are. -/
theorem progresses_iff_boundedTaken {cfg : MainLoopConfig}
    {runs : Set (List (QueueWorker × LoopAction) × QueueWorker)}
    (hruns : ∀ r ∈ runs, LoopRun cfg r.1 r.2) :
    Progresses runs ↔ ∃ m, ∀ r ∈ runs, ∀ u ∈ states r.1 r.2, u.taken ≤ m := by
  have hbounds (r) (hr : r ∈ runs) (u) (hu : u ∈ states r.1 r.2) :
      2 * u.taken ≤ u.calls ∧ u.calls ≤ 2 * u.taken + 7 := by
    obtain ⟨past, hpast⟩ := (hruns r hr).prefix_of_mem hu
    exact calls_bounds hpast
  constructor
  · rintro ⟨k, _, hk⟩
    refine ⟨k, fun r hr u hu ↦ ?_⟩
    have hcalls := (hk r hr).1 u hu
    have hlow := (hbounds r hr u hu).1
    omega
  · rintro ⟨m, hm⟩
    have hcalls (r) (hr : r ∈ runs) (u) (hu : u ∈ states r.1 r.2) : u.calls ≤ 2 * m + 7 := by
      have htaken := hm r hr u hu
      have hup := (hbounds r hr u hu).2
      omega
    refine ⟨2 * m + 7, by omega, fun r hr ↦ ⟨hcalls r hr, fun secs hb ↦ ?_⟩⟩
    exact not_watchdogFires (hruns r hr) (by omega) hb (hcalls r hr)

/-- A worker that takes two jobs and then finds its pool full. -/
def fillsPool : List LoopAction :=
  [.listen (.ok ()), .gate (.ok true), .checkRegistry, .read, .gate (.ok true),
    .acquireJob (.ok (some 1)), .read, .gate (.ok true), .acquireJob (.ok (some 2)), .read]

/-- The watchdog spares a worker that fills its pool. -/
theorem progresses_iff_boundedTaken_fillsPool :
    ∃ r : List (QueueWorker × LoopAction) × QueueWorker,
      LoopRun { workerUuid := 0 } r.1 r.2 ∧ r.2.taken = 2 ∧ Progresses {r} := by
  have hreplay : (replay (next { workerUuid := 0 }) (create 0 false).run fillsPool).map (fun r ↦
      (r.2.taken, decide (∀ u ∈ states r.1 r.2, u.taken ≤ 2))) = some (2, true) := by
    decide +kernel
  obtain ⟨⟨past, s⟩, hs, hr⟩ := Option.map_eq_some_iff.mp hreplay
  simp only [Prod.mk.injEq, decide_eq_true_eq] at hr
  have hrun : LoopRun { workerUuid := 0 } past s := Run.of_replay id ⟨0, false, rfl⟩ hs
  have hruns : ∀ r ∈ ({(past, s)} : Set (List (QueueWorker × LoopAction) × QueueWorker)),
      LoopRun { workerUuid := 0 } r.1 r.2 := by
    rintro r rfl
    exact hrun
  refine ⟨(past, s), hrun, hr.1, (progresses_iff_boundedTaken hruns).mpr ⟨2, ?_⟩⟩
  rintro r rfl
  exact hr.2

/-- One job after another ends before the loop looks for a free slot: the loop has taken `n`
of them, in calls of one second each. -/
structure Busy (n : Nat) (past : List (QueueWorker × LoopAction)) (s : QueueWorker) :
    Prop where
  pc : s.pc = .gateBeforeAcquire
  serving : s.stop = false
  active : s.activeJobIds = ∅
  executing : s.executing = []
  queued : s.queued = []
  entered : s.callStart = s.now
  taken : s.taken = n
  age : s.now - s.lastProgress = n * second
  brisk : ∀ u ∈ states past s, u.now - u.callStart ≤ second

/-- The loop takes one more job within a second. -/
theorem Busy.round {cfg : MainLoopConfig} {n : Nat} {past : List (QueueWorker × LoopAction)}
    {s : QueueWorker} (h : LoopRun cfg past s) (hb : Busy n past s) :
    ∃ past' s', LoopRun cfg past' s' ∧ Busy (n + 1) past' s' := by
  have hroom : 0 < cfg.concurrency := cfg.one_le_concurrency
  let s₁ : QueueWorker := { s with now := s.now + (1000000 : Nat) }
  let s₂ := (s₁.upgradeGateIsOpen true).goto .acquireJob
  let s₃ := (s₂.submit cfg 1).goto .slotCheck
  let s₄ := s₃.finish 1
  have h₁ : LoopRun cfg _ s₁ := h.step (a := .tick 1000000) (by
    simp [next, takesTime, hb.pc, Pc.blocking, s₁])
  have h₂ : LoopRun cfg _ s₂ := h₁.step (a := .gate (.ok true)) (by simp [next, hb.pc, s₁, s₂])
  have h₃ : LoopRun cfg _ s₃ := h₂.step (a := .acquireJob (.ok (some 1))) rfl
  have hexec : s₃.executing = [1] := by
    simp [s₃, s₂, s₁, submit, goto, upgradeGateIsOpen, hb.executing, hroom]
  have h₄ : LoopRun cfg _ s₄ := h₃.step (a := .finish 1) (by simp [next, hexec, s₄])
  have hactive : s₄.activeJobIds = ∅ := by
    simp [s₄, s₃, s₂, s₁, finish, submit, goto, upgradeGateIsOpen, hb.active]
  have hstop : s₄.stop = false := hb.serving
  have hqueued : s₄.queued = [] := by
    simp [s₄, s₃, s₂, s₁, finish, submit, goto, upgradeGateIsOpen, hb.executing, hroom, hb.queued]
  have h₅ : LoopRun cfg _ (s₄.goto .gateBeforeAcquire) := h₄.step (a := .read) (by
    simp [next, show s₄.pc = .slotCheck from rfl, processJobs, hstop, hactive,
      Nat.ne_of_gt hroom])
  refine ⟨_, _, h₅, rfl, hstop, hactive, ?_, hqueued, rfl, ?_, ?_, ?_⟩
  · simp [s₄, s₃, s₂, s₁, finish, submit, goto, upgradeGateIsOpen, hb.executing, hroom, hb.queued]
  · show s.taken + 1 = n + 1
    rw [hb.taken]
  · show s.now + (1000000 : Nat) - s.lastProgress = (n + 1 : Nat) * second
    have hage := hb.age
    simp only [second] at *
    push_cast
    linarith
  · intro u hu
    simp only [states_cons, List.mem_cons] at hu
    rcases hu with rfl | rfl | rfl | rfl | rfl | hu
    · simp [goto, second]
    · simp [s₄, s₃, finish, goto, second]
    · simp [s₃, goto, second]
    · simp [s₂, goto, second]
    · show s.now + (1000000 : Nat) - s.callStart ≤ second
      simp [hb.entered, second]
    · exact hb.brisk u hu

/-- A worker is busy for any time. -/
theorem exists_busy (cfg : MainLoopConfig) (n : Nat) :
    ∃ past s, LoopRun cfg past s ∧ Busy n past s := by
  induction n with
  | zero =>
    have hroom : cfg.concurrency ≠ 0 := Nat.ne_of_gt cfg.one_le_concurrency
    let s₁ : QueueWorker := (create 0 false).goto .listen
    let s₂ := s₁.advance.goto .gateAtTop
    let s₃ := (s₂.upgradeGateIsOpen true).goto .checkRegistry
    let s₄ := (s₃.checkRegistry cfg).goto .slotCheck
    have h₁ : LoopRun cfg [] s₁ := .start ⟨0, false, rfl⟩
    have h₂ : LoopRun cfg _ s₂ := h₁.step (a := .listen (.ok ())) rfl
    have h₃ : LoopRun cfg _ s₃ := h₂.step (a := .gate (.ok true)) rfl
    have h₄ : LoopRun cfg _ s₄ := h₃.step (a := .checkRegistry) rfl
    have h₅ : LoopRun cfg _ (s₄.goto .gateBeforeAcquire) := h₄.step (a := .read) (by
      simp [next, show s₄.pc = .slotCheck from rfl, show s₄.stop = false from rfl, processJobs,
        show s₄.activeJobIds = ∅ from rfl, hroom])
    refine ⟨_, _, h₅, rfl, rfl, rfl, rfl, rfl, rfl, rfl, ?_, fun u hu ↦ ?_⟩
    · show (0 : Int) - 0 = (0 : Nat) * second
      simp
    · simp only [states, List.map_cons, List.map_nil, List.mem_cons, List.not_mem_nil,
        or_false] at hu
      rcases hu with rfl | rfl | rfl | rfl | rfl <;> simp [s₁, s₂, s₃, s₄, goto, second]
  | succ n ih =>
    obtain ⟨past, s, h, hb⟩ := ih
    exact hb.round h

/-- No number bounds the calls, and the watchdog terminates a worker whose calls are shorter
than any part of its limit. -/
theorem not_progresses_busy :
    (¬ ∃ k, ∀ (past : List (QueueWorker × LoopAction)) (s : QueueWorker),
      LoopRun { workerUuid := 0 } past s → s.calls ≤ k) ∧
    ¬ ∃ k, 0 < k ∧ ∀ (past : List (QueueWorker × LoopAction)) (s : QueueWorker) (secs : Int),
      LoopRun { workerUuid := 0 } past s → Brisk k secs past s → ¬ WatchdogFires secs s := by
  constructor
  · rintro ⟨k, hk⟩
    obtain ⟨past, s, h, hb⟩ := exists_busy { workerUuid := 0 } (k + 1)
    have hlow := (calls_bounds h).1
    have hcalls := hk past s h
    have htaken := hb.taken
    omega
  · rintro ⟨k, hpos, hk⟩
    obtain ⟨past, s, h, hb⟩ := exists_busy { workerUuid := 0 } (k + 2)
    refine hk past s (k + 1) h (fun u hu ↦ ?_) ⟨by omega, hb.serving, by simp [hb.pc], ?_⟩
    · have hbrisk := hb.brisk u hu
      simp only [second] at *
      nlinarith
    · rw [hb.age]
      simp only [second]
      push_cast
      omega

end JobWorker
