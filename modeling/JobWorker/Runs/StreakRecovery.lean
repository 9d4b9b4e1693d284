import JobWorker.Runs.DegradedSignal

/-!
# The error streak of a recovered worker

Behind a database error the streak stays until the next full cycle has ended
(`job_worker/cli/worker.py:333–381`). An acquisition that succeeds in that cycle can be
followed by a long drain of `process_jobs`, which waits for every running job while a slot
is free (`job_worker/cli/worker.py:464–546`).
-/

namespace JobWorker

open Transition QueueWorker

/-- The position is in the loop of `process_jobs`. -/
def Pc.draining : Pc → Bool
  | slotCheck | gateBeforeAcquire | acquireJob | activeCheck | slotWait => true
  | _ => false

/-- No call raises. -/
def LoopAction.succeeds : LoopAction → Bool
  | .listen (.error _) | .gate (.error _) | .acquireJob (.error _) | .updateHeartbeats (.error _)
  | .select (.error _) => false
  | _ => true

/-- A full cycle has been completed. -/
def CycleCompleted (mid : List (QueueWorker × LoopAction)) : Prop :=
  ∃ p ∈ mid, p.2 = .select (.ok ())

/-- The worker counts as one without a database error. -/
def Unreported (s : QueueWorker) : Prop :=
  s.secondsInDatabaseErrorRecovery s.now = 0 ∧ ∀ f : FleetHealth,
    (f.watching s).fleetIsDegraded s.now = (f.watching (s.withStreak 0 none)).fleetIsDegraded s.now

/-- Once `limit` has passed since `since`, the worker is not reported. -/
def RecoversWithin (limit since : Time) (mid : List (QueueWorker × LoopAction))
    (s : QueueWorker) : Prop :=
  ∀ r ∈ prefixes mid s, since + limit < r.2.now → Unreported r.2

/-- The cycle that was going on at `since` ends within `limit`. -/
def CycleEndsWithin (limit since : Time) (mid : List (QueueWorker × LoopAction))
    (s : QueueWorker) : Prop :=
  ∀ r ∈ prefixes mid s, since + limit < r.2.now → CycleCompleted r.1

/-- `process_jobs` returns within `limit`. -/
def DrainsWithin (limit since : Time) (mid : List (QueueWorker × LoopAction))
    (s : QueueWorker) : Prop :=
  ∀ r ∈ prefixes mid s, (∀ u ∈ states r.1 r.2, u.pc.draining = true) → r.2.now ≤ since + limit

/-- The heartbeats take at most `step`, and `select` at most `pollTimeout`. -/
def Punctual (step pollTimeout : Time) (s : QueueWorker) : Prop :=
  (s.pc = .updateHeartbeats → s.now ≤ s.callStart + step) ∧
    (s.pc = .select → s.now ≤ s.callStart + pollTimeout)

section Recovery

variable {cfg : MainLoopConfig} {s s' v : QueueWorker} {a : LoopAction}
  {limit since step pollTimeout : Time} {past mid : List (QueueWorker × LoopAction)}

/-- What succeeds raises nothing. -/
theorem raises_of_succeeds (h : a.succeeds = true) : a.raises = none := by
  cases a with
  | listen result | gate result | acquireJob result | updateHeartbeats result | select result =>
    cases result with
    | error => cases h
    | ok => rfl
  | _ => rfl

/-- What succeeds lets no database error out. -/
theorem failsDatabase_of_succeeds (h : a.succeeds = true) : a.failsDatabase = false := by
  simp [LoopAction.failsDatabase, raises_of_succeeds h]

/-- While the calls succeed, a completed cycle clears the streak and nothing else changes
it. -/
theorem streakStartedAt_run (h : Run (· = v) (fun s a s' ↦ s.next cfg a = some s') mid s)
    (hsucc : ∀ p ∈ mid, p.2.succeeds = true) :
    (CycleCompleted mid → s.databaseErrorStreakStartedAt = none) ∧
    (¬ CycleCompleted mid → s.databaseErrorStreakStartedAt = v.databaseErrorStreakStartedAt) := by
  induction h with
  | start h =>
    subst h
    exact ⟨fun ⟨_, hp, _⟩ ↦ absurd hp List.not_mem_nil, fun _ ↦ rfl⟩
  | @step mid s s' a _ hs ih =>
    obtain ⟨ih, ih'⟩ := ih fun p hp ↦ hsucc p (List.mem_cons_of_mem _ hp)
    have hf := failsDatabase_of_succeeds (hsucc _ List.mem_cons_self)
    have hcons : CycleCompleted ((s, a) :: mid) ↔ a = .select (.ok ()) ∨ CycleCompleted mid := by
      simp [CycleCompleted]
    rw [hcons, streakStartedAt_next hs, hf, if_neg Bool.false_ne_true]
    by_cases ha : a = .select (.ok ())
    · simp [ha]
    · simp only [ha, if_false, false_or]
      exact ⟨ih, ih'⟩

/-- A worker is not reported when its streak is empty or begins now. -/
theorem unreported_iff : Unreported s ↔
    ∀ t, s.databaseErrorStreakStartedAt = some t → s.now ≤ t := by
  have hsecs : s.secondsInDatabaseErrorRecovery s.now = 0 ↔
      ∀ t, s.databaseErrorStreakStartedAt = some t → s.now ≤ t := by
    unfold secondsInDatabaseErrorRecovery
    split
    · next h => simp [h]
    · next started h => simp [h]
  rw [← hsecs]
  exact and_iff_left_of_imp fun h f ↦ FleetHealth.fleetIsDegraded_congr h

/-- Only listening and the back-off lead out of the loop without an exception or a completed
cycle. -/
theorem Leaving.of_succeeds {n : Nat} {t : Option Time} (h : s.Leaving cfg a n t)
    (hsucc : a.succeeds = true) :
    a = .listen (.ok ()) ∨ a = .waited ∨ a = .select (.ok ()) := by
  cases h with
  | crashed hother => cases (raises_of_succeeds hsucc).symm.trans hother
  | overflowed hf => cases (failsDatabase_of_succeeds hsucc).symm.trans hf
  | stopped heq => exact heq.imp_right .inl
  | completed => exact .inr (.inr rfl)

/-- A step of `process_jobs`, of the heartbeats and of `select` stays in its call, goes on
in `process_jobs`, begins the next call or ends the cycle. -/
theorem positions_next (h : s.next cfg a = some s') (hsucc : a.succeeds = true)
    (hpc : s.pc.draining = true ∨ s.pc = .updateHeartbeats ∨ s.pc = .select) :
    s'.pc = s.pc ∧ s'.callStart = s.callStart ∨
    s.pc.draining = true ∧ (s'.pc.draining = true ∨
      s'.pc = .updateHeartbeats ∧ s'.callStart = s.now) ∨
    s.pc = .updateHeartbeats ∧ s'.pc = .select ∧ s'.callStart = s.now ∨
    a = .select (.ok ()) := by
  have hnot {pc : Pc} (heq : s.pc = pc) (hd : pc.draining = false) (hu : pc ≠ .updateHeartbeats)
      (hs : pc ≠ .select) : False := by
    subst heq
    simp [hd, hu, hs] at hpc
  cases effect_of_next h with
  | tick | stop | finish => exact .inl ⟨rfl, rfl⟩
  | leave hb =>
    refine .inr (.inl ⟨?_, .inr ⟨rfl, rfl⟩⟩)
    rcases hb with hb | hb <;> rw [hb] <;> rfl
  | closed hb =>
    rcases hb with hb | hb
    · exact (hnot hb rfl nofun nofun).elim
    · exact .inr (.inl ⟨by rw [hb]; rfl, .inr ⟨rfl, rfl⟩⟩)
  | proceed hb | wait hb | openBeforeAcquire hb | acquired hb | notAcquired hb | slept hb =>
    exact .inr (.inl ⟨by rw [hb]; rfl, .inl rfl⟩)
  | beaten hb => exact .inr (.inr (.inl ⟨hb, rfl, rfl⟩))
  | completed => exact .inr (.inr (.inr rfl))
  | listened hb | relisten hb | openAtTop hb | checked hb | ended hb =>
    exact (hnot hb rfl nofun nofun).elim
  | backOff _ hf | overslept _ hf => cases (failsDatabase_of_succeeds hsucc).symm.trans hf
  | shutdown _ hl =>
    rcases Leaving.of_succeeds hl hsucc with rfl | rfl | rfl
    · have hb : s.pc = .listen := by
        simp only [next] at h
        split at h
        · assumption
        · assumption
        · cases h
      exact (hnot hb rfl nofun nofun).elim
    · exact (hnot (Option.ite_none_right_eq_some.mp h).1 rfl nofun nofun).elim
    · exact .inr (.inr (.inr rfl))

/-- Where a worker is behind an acquisition of the time `since`, and when it came there, if
`process_jobs` returns within `limit`. -/
def Position (limit step since : Time) (mid : List (QueueWorker × LoopAction))
    (s : QueueWorker) : Prop :=
  (∀ u ∈ states mid s, u.pc.draining = true) ∨
  (s.pc = .updateHeartbeats ∧ s.callStart ≤ since + limit) ∨
  (s.pc = .select ∧ s.callStart ≤ since + limit + step)

/-- Until the cycle has ended, a worker is in one of these positions. -/
theorem position (h : Run (· = v) (fun s a s' ↦ s.next cfg a = some s') mid s)
    (hv : v.pc.draining = true) (hsucc : ∀ p ∈ mid, p.2.succeeds = true)
    (hcalls : ∀ u ∈ states mid s, Punctual step pollTimeout u)
    (hdrain : DrainsWithin limit since mid s) (hnot : ¬ CycleCompleted mid) :
    Position limit step since mid s := by
  induction h with
  | start h =>
    subst h
    refine .inl fun u hu ↦ ?_
    rw [List.mem_singleton.mp hu]
    exact hv
  | @step mid s s' a _ hs ih =>
    have ih := ih (fun p hp ↦ hsucc p (List.mem_cons_of_mem _ hp))
      (fun u hu ↦ hcalls u (List.mem_cons_of_mem _ hu))
      (fun r hr ↦ hdrain r (List.mem_cons_of_mem _ hr))
      (fun ⟨p, hp, hc⟩ ↦ hnot ⟨p, List.mem_cons_of_mem _ hp, hc⟩)
    have hnow : (∀ u ∈ states mid s, u.pc.draining = true) → s.now ≤ since + limit :=
      hdrain (mid, s) (List.mem_cons_of_mem _ (self_mem_prefixes mid s))
    have hpos : s.pc.draining = true ∨ s.pc = .updateHeartbeats ∨ s.pc = .select :=
      ih.imp (fun h ↦ h s List.mem_cons_self) (Or.imp And.left And.left)
    rcases positions_next hs (hsucc _ List.mem_cons_self) hpos with
      ⟨hpc, hstart⟩ | ⟨hd, hnext⟩ | ⟨hu, hpc, hstart⟩ | rfl
    · rw [Position, hpc, hstart]
      refine ih.imp_left fun hall u hu ↦ ?_
      rcases List.mem_cons.mp hu with rfl | hu
      · rw [hpc]
        exact hall s List.mem_cons_self
      · exact hall u hu
    · rcases ih with hall | ⟨hu, _⟩ | ⟨hu, _⟩
      · rcases hnext with hd' | ⟨hpc, hstart⟩
        · refine .inl fun u hu ↦ ?_
          rcases List.mem_cons.mp hu with rfl | hu
          · exact hd'
          · exact hall u hu
        · exact .inr (.inl ⟨hpc, hstart ▸ hnow hall⟩)
      · rw [hu] at hd
        cases hd
      · rw [hu] at hd
        cases hd
    · rcases ih with hall | ⟨_, hle⟩ | ⟨hs', _⟩
      · have hd := hall s List.mem_cons_self
        rw [hu] at hd
        cases hd
      · have hbeat := (hcalls s (List.mem_cons_of_mem _ List.mem_cons_self)).1 hu
        exact .inr (.inr ⟨hpc, by rw [hstart]; linarith⟩)
      · cases hu.symm.trans hs'
    · exact absurd ⟨_, List.mem_cons_self, rfl⟩ hnot

/-- Behind a short drain, a cycle ends within it and its last two calls. -/
theorem cycleEndsWithin_of_drainsWithin
    (h : Run (· = v) (fun s a s' ↦ s.next cfg a = some s') mid s)
    (hv : v.pc.draining = true) (hsucc : ∀ p ∈ mid, p.2.succeeds = true)
    (hstep : 0 ≤ step) (hpoll : 0 ≤ pollTimeout)
    (hcalls : ∀ u ∈ states mid s, Punctual step pollTimeout u)
    (hdrain : DrainsWithin limit since mid s) :
    CycleEndsWithin (limit + step + pollTimeout) since mid s := by
  intro r hr hlate
  by_contra hnot
  have hpos := position (h.of_mem_prefixes hr) hv
    (fun p hp ↦ hsucc p (subset_of_mem_prefixes hr hp))
    (fun u hu ↦ hcalls u (states_subset_of_mem_prefixes hr hu))
    (fun q hq ↦ hdrain q (prefixes_subset hr hq)) hnot
  have hcall := hcalls r.2 (states_subset_of_mem_prefixes hr List.mem_cons_self)
  rcases hpos with hall | ⟨hpc, hle⟩ | ⟨hpc, hle⟩
  · have hnow := hdrain r hr hall
    linarith
  · have hbeat := hcall.1 hpc
    linarith
  · have hselect := hcall.2 hpc
    linarith

/-- The end of the cycle has been in `select`, not in `process_jobs`. -/
theorem drainsWithin_of_cycleEndsWithin
    (h : Run (· = v) (fun s a s' ↦ s.next cfg a = some s') mid s)
    (hcycle : CycleEndsWithin limit since mid s) : DrainsWithin limit since mid s := by
  intro r hr hall
  by_contra hlate
  obtain ⟨p, hp, hc⟩ := hcycle r hr (not_le.mp hlate)
  obtain ⟨u, _, hnext⟩ := (h.of_mem_prefixes hr).after hp
  have hd := hall p.1 (mem_states_of_mem hp)
  have hpc : p.1.pc = .select := by
    rw [hc] at hnext
    simp only [next] at hnext
    split at hnext
    · assumption
    · assumption
    · cases hnext
  rw [hpc] at hd
  cases hd

end Recovery

/-- A worker recovers within a time exactly when it has no streak or the cycle of its
acquisition ends within it, for which `process_jobs` has to return within it and may leave
time for the heartbeats and `select`. -/
theorem recoversWithin_iff {cfg : MainLoopConfig} {job : Option JobId} {v s : QueueWorker}
    {past mid : List (QueueWorker × LoopAction)}
    (h : LoopRun cfg (mid ++ (v, .acquireJob (.ok job)) :: past) s)
    (hsucc : ∀ p ∈ mid, p.2.succeeds = true) :
    (∀ limit, 0 ≤ limit → (RecoversWithin limit v.now mid s ↔
      v.databaseErrorStreakStartedAt = none ∨ CycleEndsWithin limit v.now mid s)) ∧
    (∀ limit, CycleEndsWithin limit v.now mid s → DrainsWithin limit v.now mid s) ∧
    ∀ limit step pollTimeout, 0 ≤ step → 0 ≤ pollTimeout →
      (∀ u ∈ states mid s, Punctual step pollTimeout u) → DrainsWithin limit v.now mid s →
      CycleEndsWithin (limit + step + pollTimeout) v.now mid s := by
  obtain ⟨t, ht, hmid⟩ := h.split
  obtain ⟨hpast, hacquire⟩ := run_cons.mp ht
  have hstart : t.databaseErrorStreakStartedAt = v.databaseErrorStreakStartedAt := by
    rw [streakStartedAt_next hacquire]
    rfl
  refine ⟨fun limit hlimit ↦ ⟨fun hrec ↦ ?_, fun hor r hr hlate ↦ ?_⟩,
    fun limit ↦ drainsWithin_of_cycleEndsWithin hmid, fun limit step pollTimeout hs hp ↦
      cycleEndsWithin_of_drainsWithin hmid ?_ hsucc hs hp⟩
  · cases hv : v.databaseErrorStreakStartedAt with
    | none => exact .inl rfl
    | some started =>
      refine .inr fun r hr hlate ↦ by_contra fun hnot ↦ ?_
      have hle := streakStartedAt_le hpast started hv
      have hkept := (streakStartedAt_run (hmid.of_mem_prefixes hr)
        fun p hp ↦ hsucc p (subset_of_mem_prefixes hr hp)).2 hnot
      have hnow := unreported_iff.mp (hrec r hr hlate) started (hkept.trans (hstart.trans hv))
      linarith
  · rw [unreported_iff]
    intro started hs
    obtain ⟨hnone, hkept⟩ := streakStartedAt_run (hmid.of_mem_prefixes hr)
      fun p hp ↦ hsucc p (subset_of_mem_prefixes hr hp)
    by_cases hc : CycleCompleted r.1
    · cases (hnone hc).symm.trans hs
    · rcases hor with hv | hcycle
      · cases ((hkept hc).trans (hstart.trans hv)).symm.trans hs
      · exact absurd (hcycle r hr hlate) hc
  · cases effect_of_next hacquire with
    | acquired | notAcquired => rfl
    | backOff _ hf | overslept _ hf => cases hf
    | shutdown _ hl =>
      rcases Leaving.of_succeeds hl rfl with h | h | h <;> cases h

/-- A session behind a lost connection. -/
def secondSession : List LoopAction := .listen (.error .database) :: .waited :: session

/-- A worker whose pool is full recovers within the heartbeats and `select`. -/
theorem recoversWithin_iff_fullPool : ∃ past mid v s,
    LoopRun { workerUuid := 0, concurrency := 1 }
      (mid ++ (v, .acquireJob (.ok (some 1))) :: past) s ∧
    v.databaseErrorStreakStartedAt ≠ none ∧ s.now - v.now = 60 * second ∧
    RecoversWithin (6 * second) v.now mid s := by
  have hreplay : (replayAround (next { workerUuid := 0, concurrency := 1 })
      (create 0 false).run secondSession (.acquireJob (.ok (some 1)))
      [.read, .tick 1000000, .updateHeartbeats (.ok ()), .tick 5000000, .select (.ok ()),
        .tick 54000000]).map (fun (r, q) ↦
      (decide (r.2.databaseErrorStreakStartedAt ≠ none),
        decide (q.2.now - r.2.now = 60 * second),
        decide (∀ p ∈ q.1, p.2.succeeds = true),
        decide (∀ u ∈ states q.1 q.2,
          (u.pc = .updateHeartbeats → u.now ≤ u.callStart + second) ∧
            (u.pc = .select → u.now ≤ u.callStart + 5 * second)),
        decide (∀ c ∈ prefixes q.1 q.2, (∀ u ∈ states c.1 c.2, u.pc.draining = true) →
          c.2.now ≤ r.2.now + 0))) = some (true, true, true, true, true) := by
    decide +kernel
  obtain ⟨⟨⟨earlier, v⟩, later, s⟩, hs, hr⟩ := Option.map_eq_some_iff.mp hreplay
  simp only [Prod.mk.injEq, decide_eq_true_eq] at hr
  obtain ⟨hstreak, hlate, hsucc, hcalls, hdrain⟩ := hr
  have hrun := (Run.start ⟨0, false, rfl⟩ :
    LoopRun { workerUuid := 0, concurrency := 1 } [] _).replayAround id hs
  obtain ⟨hiff, _, hcycle⟩ := recoversWithin_iff hrun hsucc
  have hends := hcycle 0 second (5 * second) (by decide) (by decide) hcalls hdrain
  exact ⟨_, later, v, s, hrun, hstreak, hlate,
    (hiff (6 * second) (by decide)).mpr (.inr hends)⟩

/-- Behind an acquisition the loop has waited `n` times for the only job to end. -/
structure Waiting (n : Nat) (mid : List (QueueWorker × LoopAction)) (s : QueueWorker) :
    Prop where
  pc : s.pc = .slotCheck
  serving : s.stop = false
  active : s.activeJobIds = {1}
  streak : s.databaseErrorStreakStartedAt = some 0
  now : s.now = n * 50000
  quiet : ∀ p ∈ mid, p.2.succeeds = true ∧ p.2 ≠ .gate (.ok false) ∧ p.2 ≠ .checkRegistry
  brisk : ∀ u ∈ states mid s, u.now - u.callStart ≤ 50000

/-- The loop waits once more. -/
theorem Waiting.round {n : Nat} {past mid : List (QueueWorker × LoopAction)} {s : QueueWorker}
    (h : LoopRun { workerUuid := 0 } (mid ++ past) s) (hw : Waiting n mid s) :
    ∃ mid' s', LoopRun { workerUuid := 0 } (mid' ++ past) s' ∧ Waiting (n + 1) mid' s' := by
  let s₁ := s.goto .gateBeforeAcquire
  let s₂ := (s₁.upgradeGateIsOpen true).goto .acquireJob
  let s₃ := s₂.goto .activeCheck
  let s₄ := s₃.advance.goto .slotWait
  let s₅ : QueueWorker := { s₄ with now := s₄.now + (50000 : Nat) }
  have h₁ : LoopRun { workerUuid := 0 } _ s₁ := h.step (a := .read) (by
    simp [next, hw.pc, processJobs, hw.serving, hw.active, s₁])
  have h₂ : LoopRun { workerUuid := 0 } _ s₂ := h₁.step (a := .gate (.ok true)) rfl
  have h₃ : LoopRun { workerUuid := 0 } _ s₃ := h₂.step (a := .acquireJob (.ok none)) rfl
  have h₄ : LoopRun { workerUuid := 0 } _ s₄ := h₃.step (a := .read) (by
    have hactive : s₃.activeJobIds = {1} := hw.active
    simp [next, show s₃.pc = .activeCheck from rfl, noJob, hactive, s₄])
  have h₅ : LoopRun { workerUuid := 0 } _ s₅ := h₄.step (a := .tick 50000) rfl
  have h₆ : LoopRun { workerUuid := 0 } _ (s₅.goto .slotCheck) := h₅.step (a := .slept) rfl
  refine ⟨(s₅, .slept) :: (s₄, .tick 50000) :: (s₃, .read) :: (s₂, .acquireJob (.ok none)) ::
    (s₁, .gate (.ok true)) :: (s, .read) :: mid, _, h₆,
    ⟨rfl, hw.serving, hw.active, hw.streak, ?_, ?_, ?_⟩⟩
  · show s.now + (50000 : Nat) = (n + 1 : Nat) * 50000
    rw [hw.now, Nat.cast_add, add_mul, Nat.cast_one, one_mul]
    rfl
  · intro p hp
    simp only [List.mem_cons] at hp
    rcases hp with rfl | rfl | rfl | rfl | rfl | rfl | hp
    case inr.inr.inr.inr.inr.inr => exact hw.quiet p hp
    all_goals refine ⟨rfl, ?_, ?_⟩ <;> rintro ⟨⟩
  · intro u hu
    simp only [states_cons, List.mem_cons] at hu
    rcases hu with rfl | rfl | rfl | rfl | rfl | rfl | hu
    case inr.inr.inr.inr.inr.inr => exact hw.brisk u hu
    all_goals simp [s₅, s₄, s₃, s₂, s₁, goto, advance, upgradeGateIsOpen]

/-- The loop waits for a job for any time. -/
theorem exists_waiting (n : Nat) : ∃ past mid v s,
    LoopRun { workerUuid := 0 } (mid ++ (v, .acquireJob (.ok (some 1))) :: past) s ∧
      v.now = 0 ∧ v.databaseErrorStreakStartedAt = some 0 ∧
      (∀ p ∈ past, p.2 ≠ .gate (.ok false)) ∧
      (∀ u ∈ states past v, u.now - u.callStart ≤ 50000) ∧ Waiting n mid s := by
  induction n with
  | zero =>
    have hreplay : (replay (next { workerUuid := 0 }) (create 0 false).run secondSession).map
        (fun r ↦ (decide (r.2.pc = .acquireJob ∧ r.2.now = 0 ∧ r.2.stop = false ∧
            r.2.activeJobIds = ∅ ∧ r.2.databaseErrorStreakStartedAt = some 0),
          decide (∀ p ∈ r.1, p.2 ≠ .gate (.ok false)),
          decide (∀ u ∈ states r.1 r.2, u.now - u.callStart ≤ 50000))) =
        some (true, true, true) := by
      decide +kernel
    obtain ⟨⟨past, v⟩, hs, hr⟩ := Option.map_eq_some_iff.mp hreplay
    simp only [Prod.mk.injEq, decide_eq_true_eq] at hr
    obtain ⟨⟨hpc, hnow, hstop, hactive, hstreak⟩, hopen, hbrisk⟩ := hr
    have hrun : LoopRun { workerUuid := 0 } past v := Run.of_replay id ⟨0, false, rfl⟩ hs
    have hacquire : LoopRun { workerUuid := 0 } _
        ((v.submit { workerUuid := 0 } 1).goto .slotCheck) :=
      hrun.step (a := .acquireJob (.ok (some 1))) (by simp [next, hpc])
    refine ⟨past, [], v, _, hacquire, hnow, hstreak, hopen, hbrisk,
      ⟨rfl, hstop, ?_, hstreak, ?_, ?_, ?_⟩⟩
    · show insert 1 v.activeJobIds = {1}
      rw [hactive]
      rfl
    · exact hnow
    · exact fun p hp ↦ absurd hp List.not_mem_nil
    · intro u hu
      rw [List.mem_singleton.mp hu]
      simp [goto]
  | succ n ih =>
    obtain ⟨past, mid, v, s, h, hnow, hstreak, hopen, hbrisk, hw⟩ := ih
    obtain ⟨mid', s', h', hw'⟩ := hw.round h
    exact ⟨past, mid', v, s', h', hnow, hstreak, hopen, hbrisk, hw'⟩

/-- A worker that waits for a long job does not recover within any time, and the fleet
becomes degraded. -/
theorem not_recoversWithin_longJob :
    (¬ ∃ limit, ∀ past mid v s, LoopRun { workerUuid := 0 }
        (mid ++ (v, .acquireJob (.ok (some 1))) :: past) s →
      (∀ p ∈ mid, p.2.succeeds = true) → (∀ u ∈ states mid s, u.now - u.callStart ≤ 50000) →
      RecoversWithin limit v.now mid s) ∧
    ∃ past mid v s, LoopRun { workerUuid := 0 }
        (mid ++ (v, .acquireJob (.ok (some 1))) :: past) s ∧
      (∀ p ∈ mid, p.2.succeeds = true) ∧
      ({ workerInstances := [s] } : FleetHealth).fleetIsDegraded s.now = true := by
  constructor
  · rintro ⟨limit, hall⟩
    obtain ⟨past, mid, v, s, h, hnow, _, _, _, hw⟩ := exists_waiting (limit.toNat + 1)
    have hlate : limit < s.now := by
      rw [hw.now]
      push_cast
      have hle := Int.self_le_toNat limit
      linarith
    have hrec := hall past mid v s h (fun p hp ↦ (hw.quiet p hp).1) hw.brisk (mid, s)
      (self_mem_prefixes mid s) (by rw [hnow, zero_add]; exact hlate)
    have hle := unreported_iff.mp hrec 0 hw.streak
    rw [hw.now] at hle
    push_cast at hle
    linarith [Int.natCast_nonneg limit.toNat]
  · obtain ⟨past, mid, v, s, h, _, _, _, _, hw⟩ := exists_waiting 6000
    refine ⟨past, mid, v, s, h, fun p hp ↦ (hw.quiet p hp).1,
      FleetHealth.fleetIsDegraded_of_le (f := {}) ?_ ?_⟩
    · decide
    · rw [secondsInDatabaseErrorRecovery, hw.streak, hw.now]
      decide

end JobWorker
