import JobWorker.Runs.StreakRecovery

/-!
# The age of the registry check

The registry is checked in front of `process_jobs`, at most once in `registry_check_interval`
(`job_worker/cli/worker.py:227–246,333–346`). Inside, one acquire-or-wait step follows the
other for as long as a job is active and a slot is free
(`job_worker/cli/worker.py:464–546`), so only the first of them is sure to begin soon behind
the check. The others begin as late as the calls before them are long.
-/

namespace JobWorker

open Transition QueueWorker

/-- When the last registry check that was due came back, or the worker was created. -/
def lastChecked (cfg : MainLoopConfig) : List (QueueWorker × LoopAction) → QueueWorker → Time
  | [], s => s.now
  | (u, a) :: past, _ =>
    if a = .checkRegistry ∧ u.registryCheckDue cfg = true then u.now else lastChecked cfg past u

/-- When the last acquire-or-wait step of `process_jobs` began. -/
def stepBegan : List (QueueWorker × LoopAction) → Time
  | [] => 0
  | (u, a) :: past => if a = .read ∧ u.pc = .slotCheck then u.now else stepBegan past

/-- The acquire-or-wait steps of `process_jobs` since `_check_registry` was called. -/
def stepsBegun : List (QueueWorker × LoopAction) → Nat
  | [] => 0
  | (u, a) :: past =>
    if a = .checkRegistry then 0
    else if a = .read ∧ u.pc = .slotCheck then stepsBegun past + 1 else stepsBegun past

/-- An acquisition uses a registry that was checked an interval before it at most, apart from
its own step. -/
def RecentlyChecked (cfg : MainLoopConfig) (past : List (QueueWorker × LoopAction))
    (v : QueueWorker) : Prop :=
  v.now - lastChecked cfg past v ≤
    cfg.registryCheckInterval * second + (v.now - stepBegan past)

/-- What holds of a worker whose last due check came back at `checked`, and which has begun
`steps` steps of `process_jobs`, the last of them at `began`. -/
structure Checked (cfg : MainLoopConfig) (checked began : Time) (steps : Nat)
    (s : QueueWorker) : Prop where
  gateWasOpen : s.upgradeGateWasOpen = true
  lastCheck : ∃ t, s.lastRegistryCheck = some t ∧ t ≤ checked
  started : s.callStart ≤ s.now
  instant : s.pc.blocking = false → s.callStart = s.now
  undue : s.pc = .checkRegistry → s.registryCheckDue cfg = false → s.callStart = s.now
  behindCheck : s.pc = .slotCheck → steps = 0 →
    s.now - checked ≤ cfg.registryCheckInterval * second
  firstStep : s.pc = .gateBeforeAcquire ∨ s.pc = .acquireJob → steps = 1 →
    began - checked ≤ cfg.registryCheckInterval * second
  begun : s.pc.draining = true → s.pc ≠ .slotCheck → 1 ≤ steps

section Age

variable {cfg : MainLoopConfig} {s s' t : QueueWorker} {a : LoopAction} {pc : Pc}
  {checked began began' : Time} {steps steps' : Nat}
  {past mid : List (QueueWorker × LoopAction)}

/-- A check has come back in the past. -/
theorem lastChecked_le (h : LoopRun cfg past s) : lastChecked cfg past s ≤ s.now := by
  induction h with
  | start _ => exact le_rfl
  | step _ hs ih =>
    have hnow := now_le_next hs
    rw [lastChecked]
    split
    · exact hnow
    · exact ih.trans hnow

/-- The next call begins, outside `process_jobs`, or inside behind the begin of a step. -/
theorem Checked.goto (h : Checked cfg checked began' steps' s)
    (hgate : t.upgradeGateWasOpen = true) (hcheck : t.lastRegistryCheck = s.lastRegistryCheck)
    (hsteps : pc.draining = true → 1 ≤ steps)
    (hfirst : pc = .gateBeforeAcquire ∨ pc = .acquireJob →
      steps = 1 → began - checked ≤ cfg.registryCheckInterval * second) :
    Checked cfg checked began steps (t.goto pc) where
  gateWasOpen := hgate
  lastCheck := hcheck ▸ h.lastCheck
  started := le_rfl
  instant := fun _ ↦ rfl
  undue := fun _ _ ↦ rfl
  behindCheck := by
    rintro rfl h0
    exact absurd h0 (Nat.ne_of_gt (hsteps rfl))
  firstStep := hfirst
  begun := fun hd _ ↦ hsteps hd

/-- The next call begins outside `process_jobs`. -/
theorem Checked.goto_outside (h : Checked cfg checked began' steps' s)
    (hgate : t.upgradeGateWasOpen = true) (hcheck : t.lastRegistryCheck = s.lastRegistryCheck)
    (hpc : pc.draining = false) : Checked cfg checked began steps (t.goto pc) :=
  h.goto hgate hcheck (fun hd ↦ by cases hpc.symm.trans hd) fun heq ↦ by
    rcases heq with rfl | rfl <;> cases hpc

/-- A registry check comes back. -/
theorem Checked.checkRegistry (h : Checked cfg checked began steps s)
    (hpc : s.pc = .checkRegistry) :
    Checked cfg (if s.registryCheckDue cfg = true then s.now else checked) began 0
      ((s.checkRegistry cfg).goto .slotCheck) := by
  have hinterval : 0 ≤ cfg.registryCheckInterval * second :=
    mul_nonneg (le_trans (by decide) cfg.five_le_registryCheckInterval) (by decide)
  obtain ⟨t, ht, hle⟩ := h.lastCheck
  cases hdue : s.registryCheckDue cfg with
  | true =>
    refine ⟨h.gateWasOpen, ⟨s.callStart, if_pos hdue, h.started⟩, le_rfl, fun _ ↦ rfl, nofun,
      fun _ _ ↦ ?_, ?_, nofun⟩
    · show s.now - s.now ≤ _
      rw [sub_self]
      exact hinterval
    · rintro (heq | heq) <;> cases heq
  | false =>
    refine ⟨h.gateWasOpen, ⟨t, ?_, hle⟩, le_rfl, fun _ ↦ rfl, nofun, fun _ _ ↦ ?_, ?_, nofun⟩
    · show (if s.registryCheckDue cfg = true then _ else _) = _
      rw [hdue]
      exact ht
    · have hundue := hdue
      rw [registryCheckDue, ht, Option.all_some, decide_eq_false_iff_not, not_le] at hundue
      show s.now - checked ≤ _
      rw [← h.undue hpc hdue]
      linarith
    · rintro (heq | heq) <;> cases heq

/-- A step keeps account of the check and the steps behind it, while the gate is open. -/
theorem checked_next (h : s.next cfg a = some s') (ha : a ≠ .gate (.ok false))
    (hc : Checked cfg (lastChecked cfg past s) (stepBegan past) (stepsBegun past) s) :
    Checked cfg (lastChecked cfg ((s, a) :: past) s') (stepBegan ((s, a) :: past))
      (stepsBegun ((s, a) :: past)) s' := by
  have hopen : (s.upgradeGateIsOpen true).lastRegistryCheck = s.lastRegistryCheck := by
    simp [upgradeGateIsOpen, hc.gateWasOpen]
  have hother (hne : a ≠ .checkRegistry) :
      lastChecked cfg ((s, a) :: past) s' = lastChecked cfg past s := by
    rw [lastChecked, if_neg fun h ↦ hne h.1]
  cases effect_of_next h with
  | tick hb hdue =>
    refine ⟨hc.gateWasOpen, hc.lastCheck, ?_, fun hn ↦ ?_, fun hpc hn ↦ ?_, fun hpc ↦ ?_,
      hc.firstStep, hc.begun⟩
    · exact hc.started.trans (Int.le_add_of_nonneg_right (Int.natCast_nonneg _))
    · cases hb.symm.trans hn
    · cases (hdue hpc).symm.trans hn
    · have hpc : s.pc = .slotCheck := hpc
      rw [hpc] at hb
      cases hb
  | stop | finish =>
    exact ⟨hc.gateWasOpen, hc.lastCheck, hc.started, hc.instant, hc.undue, hc.behindCheck,
      hc.firstStep, hc.begun⟩
  | leave => exact hc.goto_outside hc.gateWasOpen rfl rfl
  | proceed hpc hroom =>
    refine hc.goto hc.gateWasOpen rfl (fun _ ↦ ?_) fun _ h1 ↦ ?_
    · simp [stepsBegun, hpc]
    · have h0 : stepsBegun past = 0 := by simpa [stepsBegun, hpc] using h1
      have hbegan : stepBegan ((s, .read) :: past) = s.now := by simp [stepBegan, hpc]
      rw [hbegan]
      exact hc.behindCheck hpc h0
  | wait hpc =>
    refine hc.goto hc.gateWasOpen rfl (fun _ ↦ ?_) fun heq ↦ ?_
    · have hsteps := hc.begun (by rw [hpc]; rfl) fun h ↦ by cases hpc.symm.trans h
      simpa [stepsBegun, hpc] using hsteps
    · rcases heq with heq | heq <;> cases heq
  | openBeforeAcquire hpc =>
    refine hc.goto rfl hopen (fun _ ↦ ?_) fun _ ↦ hc.firstStep (.inl hpc)
    exact hc.begun (by rw [hpc]; rfl) fun h ↦ by cases hpc.symm.trans h
  | closed => exact absurd rfl ha
  | checked hpc =>
    have hsteps : stepsBegun ((s, .checkRegistry) :: past) = 0 := by simp [stepsBegun]
    have hlast : lastChecked cfg ((s, .checkRegistry) :: past)
        ((s.checkRegistry cfg).goto .slotCheck) =
          if s.registryCheckDue cfg = true then s.now else lastChecked cfg past s := by
      simp [lastChecked]
    rw [hsteps, hlast]
    exact hc.checkRegistry hpc
  | acquired hpc | notAcquired hpc | slept hpc =>
    refine hc.goto hc.gateWasOpen rfl (fun _ ↦ ?_) fun heq ↦ ?_
    · exact hc.begun (by rw [hpc]; rfl) fun h ↦ by cases hpc.symm.trans h
    · rcases heq with heq | heq <;> cases heq
  | listened | completed | relisten | beaten | ended =>
    exact hc.goto_outside hc.gateWasOpen rfl rfl
  | openAtTop => exact hc.goto_outside rfl hopen rfl
  | backOff _ hf | overslept _ hf =>
    rw [hother (by rintro rfl; cases hf)]
    exact hc.goto_outside hc.gateWasOpen rfl rfl
  | shutdown _ hl =>
    have hne : a ≠ .checkRegistry := by
      rintro rfl
      cases hl with
      | crashed hr | overflowed hr => cases hr
      | stopped heq => rcases heq with heq | heq <;> cases heq
    rw [hother hne]
    exact hc.goto_outside hc.gateWasOpen rfl rfl

/-- A worker starts with its registry checked. -/
theorem checked_starts (h : s.Starts) : Checked cfg s.now 0 0 s := by
  obtain ⟨now, stop, rfl⟩ := h
  have hcreated : Checked cfg now 0 0 (create now stop) := by
    refine ⟨rfl, ⟨now, rfl, le_rfl⟩, le_rfl, fun _ ↦ rfl, nofun, nofun, ?_, nofun⟩
    rintro (heq | heq) <;> cases heq
  cases stop with
  | false => exact hcreated.goto_outside rfl rfl rfl
  | true => exact hcreated.goto_outside rfl rfl rfl

/-- While the gate is open a run keeps account of the check and the steps behind it. -/
theorem checked_run (h : LoopRun cfg past s) (hopen : ∀ p ∈ past, p.2 ≠ .gate (.ok false)) :
    Checked cfg (lastChecked cfg past s) (stepBegan past) (stepsBegun past) s := by
  induction h with
  | start h => exact checked_starts h
  | step _ hs ih =>
    exact checked_next hs (hopen _ List.mem_cons_self)
      (ih fun p hp ↦ hopen p (List.mem_cons_of_mem _ hp))

end Age

/-! ### Pace -/

/-- Time passes in a call. -/
def LoopAction.passesTime : LoopAction → Bool
  | .tick _ => true
  | _ => false

/-- A worker without its clock and the readings of it that it keeps. -/
def QueueWorker.clockless (s : QueueWorker) : QueueWorker :=
  { s with
    now := 0
    callStart := 0
    lastProgress := 0
    databaseErrorStreakStartedAt := none
    lastRegistryCheck := none }

/-- What happens in a run, without the time that it takes. -/
def timeless (past : List (QueueWorker × LoopAction)) : List (QueueWorker × LoopAction) :=
  (past.filter fun p ↦ !p.2.passesTime).map fun p ↦ (p.1.clockless, p.2)

/-- The same happens in another run, whose calls may take another time. -/
structure Retimed (cfg : MainLoopConfig) (past : List (QueueWorker × LoopAction))
    (s : QueueWorker) (past' : List (QueueWorker × LoopAction)) (s' : QueueWorker) : Prop where
  run : LoopRun cfg past' s'
  timeless : timeless past' = timeless past
  clockless : s'.clockless = s.clockless

/-- The other run is so slow that every step of `process_jobs` behind the first one begins `d`
behind the last due check. -/
structure Lagging (cfg : MainLoopConfig) (d : Time) (past : List (QueueWorker × LoopAction))
    (s : QueueWorker) (past' : List (QueueWorker × LoopAction)) (s' : QueueWorker) : Prop
    extends Retimed cfg past s past' s' where
  drains : s.pc.draining = true → 1 ≤ stepsBegun past → d ≤ s'.now - lastChecked cfg past' s'
  laterStep : s.pc.draining = true → 2 ≤ stepsBegun past →
    d ≤ stepBegan past' - lastChecked cfg past' s'

section Pace

variable {cfg : MainLoopConfig} {s s' s₁ t : QueueWorker} {a : LoopAction}
  {past past' : List (QueueWorker × LoopAction)}

theorem clockless_pc : s.clockless.pc = s.pc := rfl

/-- The back-off behind an error looks at no clock. -/
theorem clockless_raised (e : LoopError) :
    (s.raised cfg e).clockless = (s.clockless.raised cfg e).clockless := by
  have hbackOff : (s.backOffAfterDatabaseError cfg).clockless =
      (s.clockless.backOffAfterDatabaseError cfg).clockless := by
    have hdelay : s.clockless.countDatabaseError.databaseErrorDelay cfg =
        s.countDatabaseError.databaseErrorDelay cfg := rfl
    simp only [backOffAfterDatabaseError, hdelay]
    split
    · rfl
    · rw [apply_ite clockless, apply_ite clockless]
      rfl
  cases e with
  | transient | database => exact hbackOff
  | other => rfl

theorem clockless_run : s.run.clockless = s.clockless.run.clockless := by
  rw [run, run, apply_ite clockless, apply_ite clockless]
  rfl

theorem clockless_cycle : s.cycle.clockless = s.clockless.cycle.clockless := by
  rw [cycle, cycle, apply_ite clockless, apply_ite clockless, clockless_run]
  rfl

/-- No step but a registry check looks at the clock, and that one goes on in the same way. -/
theorem next_clockless (ha : a.passesTime = false) :
    (s.next cfg a).map clockless = (s.clockless.next cfg a).map clockless := by
  cases a with
  | tick => cases ha
  | stop => rfl
  | checkRegistry | slept | poolShutDown | finish =>
    rw [next, next, apply_ite (Option.map clockless), apply_ite (Option.map clockless)]
    rfl
  | waited =>
    rw [next, next, apply_ite (Option.map clockless), apply_ite (Option.map clockless),
      Option.map_some, clockless_run]
    rfl
  | read =>
    simp only [next, clockless_pc]
    split
    · rw [Option.map_some, processJobs, apply_ite clockless, Option.map_some, processJobs,
        apply_ite clockless]
      rfl
    · rw [Option.map_some, noJob, apply_ite clockless, Option.map_some, noJob,
        apply_ite clockless]
      rfl
    · rfl
  | listen result =>
    simp only [next, clockless_pc]
    split
    · exact congrArg some clockless_cycle
    · exact congrArg some (clockless_raised _)
    · rfl
  | gate answer =>
    simp only [next, clockless_pc]
    split
    · rfl
    · rfl
    · split <;> rfl
    · split <;> rfl
    · split
      · exact congrArg some (clockless_raised _)
      · rfl
    · split
      · exact congrArg some (clockless_raised _)
      · rfl
    · rfl
  | acquireJob result =>
    simp only [next, clockless_pc]
    split
    · rfl
    · rfl
    · rfl
    · exact congrArg some (clockless_raised _)
    · rfl
  | updateHeartbeats result =>
    simp only [next, clockless_pc]
    split
    · rfl
    · simp only [apply_ite (Option.map clockless), Option.map_some]
      rw [clockless_raised]
      rfl
    · rfl
  | select result =>
    simp only [next, clockless_pc]
    split
    · exact congrArg some clockless_cycle
    · exact congrArg some (clockless_raised _)
    · rfl

/-- What happens to a worker can happen to one with another clock. -/
theorem exists_next_of_clockless (h : s.next cfg a = some s₁) (ha : a.passesTime = false)
    (heq : t.clockless = s.clockless) :
    ∃ t₁, t.next cfg a = some t₁ ∧ t₁.clockless = s₁.clockless := by
  have hmap : (t.next cfg a).map clockless = some s₁.clockless := by
    rw [next_clockless ha, heq, ← next_clockless ha, h, Option.map_some]
  exact Option.map_eq_some_iff.mp hmap

theorem timeless_cons_of_passesTime (ha : a.passesTime = true) :
    timeless ((s, a) :: past) = timeless past := by
  simp [timeless, ha]

theorem timeless_cons (ha : a.passesTime = false) :
    timeless ((s, a) :: past) = (s.clockless, a) :: timeless past := by
  simp [timeless, ha]

/-- The steps of `process_jobs` are counted without a clock. -/
theorem stepsBegun_timeless : stepsBegun (timeless past) = stepsBegun past := by
  induction past with
  | nil => rfl
  | cons p past ih =>
    obtain ⟨u, a⟩ := p
    cases ha : a.passesTime with
    | true =>
      have hcheck : a ≠ .checkRegistry := by rintro rfl; cases ha
      have hread : ¬ (a = .read ∧ u.pc = .slotCheck) := by rintro ⟨rfl, _⟩; cases ha
      rw [timeless_cons_of_passesTime ha, ih, stepsBegun, if_neg hcheck, if_neg hread]
    | false => rw [timeless_cons ha, stepsBegun, stepsBegun, ih, clockless_pc]

/-- What never happens in a run never happens in it at another pace. -/
theorem ne_of_timeless (heq : timeless past' = timeless past) (ha : a.passesTime = false)
    (h : ∀ p ∈ past, p.2 ≠ a) : ∀ p ∈ past', p.2 ≠ a := by
  rintro p hp rfl
  have hmem : (p.1.clockless, p.2) ∈ timeless past :=
    heq ▸ List.mem_map.mpr ⟨p, List.mem_filter.mpr ⟨hp, by simp [ha]⟩, rfl⟩
  obtain ⟨q, hq, hqp⟩ := List.mem_map.mp hmem
  exact h q (List.mem_of_mem_filter hq) (Prod.ext_iff.mp hqp).2

/-- Only a registry check leads into `process_jobs`. -/
theorem draining_before (h : s.next cfg a = some s₁) (ha : a ≠ .checkRegistry)
    (hd : s₁.pc.draining = true) : s.pc.draining = true := by
  cases effect_of_next h with
  | tick | stop | finish => exact hd
  | proceed hpc | wait hpc | openBeforeAcquire hpc | acquired hpc | notAcquired hpc | slept hpc =>
    rw [hpc]
    rfl
  | checked => exact absurd rfl ha
  | _ => cases hd

theorem Retimed.pc (h : Retimed cfg past s past' s') : s'.pc = s.pc := by
  rw [← clockless_pc, h.clockless, clockless_pc]

/-- A run of the same events goes on in the same way. -/
theorem Retimed.next (h : Retimed cfg past s past' s') (hs : s.next cfg a = some s₁)
    (ha : a.passesTime = false) :
    ∃ s₁', s'.next cfg a = some s₁' ∧ Retimed cfg ((s, a) :: past) s₁ ((s', a) :: past') s₁' := by
  obtain ⟨s₁', hs', heq⟩ := exists_next_of_clockless hs ha h.clockless
  refine ⟨s₁', hs', h.run.step hs', ?_, heq⟩
  rw [timeless_cons ha, timeless_cons ha, h.clockless, h.timeless]

/-- A call of a run takes `d` longer. -/
theorem Retimed.tick (h : Retimed cfg past s past' s') (ht : s'.takesTime cfg = true) (d : Nat) :
    Retimed cfg past s ((s', .tick d) :: past') { s' with now := s'.now + d } where
  run := h.run.step (if_pos ht)
  timeless := (timeless_cons_of_passesTime rfl).trans h.timeless
  clockless := h.clockless

/-- A step of `process_jobs` begins, and its first call takes `d`. -/
theorem Lagging.beginStep {d : Nat} (h : Lagging cfg d past s past' s')
    (hs : s.next cfg .read = some s₁) (hslot : s.pc = .slotCheck) :
    ∃ past₁ s₁', Lagging cfg d ((s, .read) :: past) s₁ past₁ s₁' := by
  obtain ⟨s₁', hs', hr⟩ := h.toRetimed.next hs rfl
  have hslot' : s'.pc = .slotCheck := h.pc.trans hslot
  have htime : s₁'.takesTime cfg = true := by
    simp only [QueueWorker.next, hslot', Option.some.injEq] at hs'
    rw [← hs', processJobs]
    split <;> rfl
  have hlast : lastChecked cfg ((s', .read) :: past') s₁' = lastChecked cfg past' s' :=
    if_neg fun h ↦ by cases h.1
  have hbegan : stepBegan ((s', .read) :: past') = s'.now := if_pos ⟨rfl, hslot'⟩
  refine ⟨_, _, hr.tick htime d, fun _ _ ↦ ?_, fun _ h2 ↦ ?_⟩
  · have hnow := now_le_next hs'
    have hle := lastChecked_le h.run
    show _ ≤ s₁'.now + d - lastChecked cfg ((s', .read) :: past') s₁'
    rw [hlast]
    linarith
  · show _ ≤ stepBegan ((s', .read) :: past') - lastChecked cfg ((s', .read) :: past') s₁'
    rw [hlast, hbegan]
    apply h.drains
    · rw [hslot]
      rfl
    · simpa [stepsBegun, hslot] using h2

/-- Inside a step of `process_jobs`, or outside, the run goes on lagging. -/
theorem Lagging.keep {d : Nat} (h : Lagging cfg d past s past' s') (hs : s.next cfg a = some s₁)
    (ha : a.passesTime = false) (hcheck : a ≠ .checkRegistry)
    (hread : ¬ (a = .read ∧ s.pc = .slotCheck)) :
    ∃ past₁ s₁', Lagging cfg d ((s, a) :: past) s₁ past₁ s₁' := by
  obtain ⟨s₁', hs', hr⟩ := h.toRetimed.next hs ha
  have hsteps : stepsBegun ((s, a) :: past) = stepsBegun past := by
    rw [stepsBegun, if_neg hcheck, if_neg hread]
  have hlast : lastChecked cfg ((s', a) :: past') s₁' = lastChecked cfg past' s' :=
    if_neg fun h ↦ hcheck h.1
  have hbegan : stepBegan ((s', a) :: past') = stepBegan past' := if_neg (by rwa [h.pc])
  refine ⟨_, _, hr, fun hd h1 ↦ ?_, fun hd h2 ↦ ?_⟩
  · have hnow := now_le_next hs'
    have hdrains := h.drains (draining_before hs hcheck hd) (hsteps ▸ h1)
    rw [hlast]
    linarith
  · rw [hlast, hbegan]
    exact h.laterStep (draining_before hs hcheck hd) (hsteps ▸ h2)

/-- A step can be taken so slowly that the run goes on lagging. -/
theorem Lagging.next {d : Nat} (h : Lagging cfg d past s past' s')
    (hs : s.next cfg a = some s₁) :
    ∃ past₁ s₁', Lagging cfg d ((s, a) :: past) s₁ past₁ s₁' := by
  cases ha : a.passesTime with
  | true =>
    -- The time that passes in the run is left out.
    obtain ⟨n, rfl⟩ : ∃ n, a = .tick n := by
      cases a with
      | tick n => exact ⟨n, rfl⟩
      | _ => cases ha
    obtain ⟨_, hs⟩ := Option.ite_none_right_eq_some.mp hs
    cases hs
    exact ⟨past', s', ⟨h.run, h.timeless.trans (timeless_cons_of_passesTime ha).symm,
      h.clockless⟩, h.drains, h.laterStep⟩
  | false =>
    by_cases hcheck : a = .checkRegistry
    · obtain ⟨s₁', _, hr⟩ := h.toRetimed.next hs ha
      have hsteps : stepsBegun ((s, a) :: past) = 0 := if_pos hcheck
      refine ⟨_, _, hr, fun _ h1 ↦ ?_, fun _ h2 ↦ ?_⟩ <;> omega
    by_cases hread : a = .read ∧ s.pc = .slotCheck
    · obtain ⟨rfl, hslot⟩ := hread
      exact h.beginStep hs hslot
    · exact h.keep hs ha hcheck hread

/-- A run can lag behind the registry check for any time. -/
theorem exists_lagging (h : LoopRun cfg past s) (d : Nat) :
    ∃ past' s', Lagging cfg d past s past' s' := by
  induction h with
  | start h => exact ⟨[], _, ⟨.start h, rfl, rfl⟩, fun _ h ↦ (by cases h), fun _ h ↦ (by cases h)⟩
  | step _ hs ih =>
    obtain ⟨past', s', hlag⟩ := ih
    exact hlag.next hs

end Pace

/-- With a gate that is never closed, an acquisition uses a recently checked registry however
long the calls of its run take exactly when its step is the first one behind
`_check_registry`. -/
theorem recentlyChecked_iff {cfg : MainLoopConfig} {job : JobId} {v s : QueueWorker}
    {past : List (QueueWorker × LoopAction)}
    (h : LoopRun cfg ((v, .acquireJob (.ok (some job))) :: past) s)
    (hopen : ∀ p ∈ past, p.2 ≠ .gate (.ok false)) :
    (∀ past' v' s', LoopRun cfg ((v', .acquireJob (.ok (some job))) :: past') s' →
      timeless past' = timeless past → RecentlyChecked cfg past' v') ↔ stepsBegun past = 1 := by
  have hacquires {v s : QueueWorker} (hs : v.next cfg (.acquireJob (.ok (some job))) = some s) :
      v.pc = .acquireJob := by
    simp only [QueueWorker.next] at hs
    split at hs
    all_goals first | assumption | cases hs
  constructor
  · intro hall
    obtain ⟨hpast, hacquire⟩ := run_cons.mp h
    have hpc := hacquires hacquire
    have hsteps := (checked_run hpast hopen).begun (by rw [hpc]; rfl) fun h ↦ by
      cases hpc.symm.trans h
    by_contra hne
    obtain ⟨past', v', hlag⟩ :=
      exists_lagging hpast ((cfg.registryCheckInterval * second).toNat + 1)
    obtain ⟨s', hs', hr⟩ := hlag.toRetimed.next hacquire rfl
    have hrec := hall past' v' s' hr.run hlag.timeless
    have hlate := hlag.laterStep (by rw [hpc]; rfl) (by omega)
    have hinterval := Int.self_le_toNat (cfg.registryCheckInterval * second)
    push_cast at hlate
    unfold RecentlyChecked at hrec
    linarith
  · intro hfirst past' v' s' hrun heq
    obtain ⟨hpast, hacquire⟩ := run_cons.mp hrun
    have hsteps : stepsBegun past' = 1 := by
      rw [← stepsBegun_timeless, heq, stepsBegun_timeless, hfirst]
    have hbegan := (checked_run hpast (ne_of_timeless heq rfl hopen)).firstStep
      (.inr (hacquires hacquire)) hsteps
    unfold RecentlyChecked
    linarith

/-- The first job behind a check uses a recently checked registry, although the calls of its
step take 40 seconds. -/
theorem recentlyChecked_iff_firstJob : ∃ past v s,
    LoopRun { workerUuid := 0 } ((v, .acquireJob (.ok (some 1))) :: past) s ∧
      v.now - lastChecked { workerUuid := 0 } past v = 40 * second ∧
      RecentlyChecked { workerUuid := 0 } past v := by
  have hreplay : (replayAround (next { workerUuid := 0 }) (create 0 false).run
      (session ++ [.tick 40000000]) (.acquireJob (.ok (some 1))) []).map (fun (r, q) ↦
        (q.1.length, stepsBegun r.1, decide (∀ p ∈ r.1, p.2 ≠ .gate (.ok false)),
          decide (r.2.now - lastChecked { workerUuid := 0 } r.1 r.2 = 40 * second))) =
      some (0, 1, true, true) := by
    decide +kernel
  obtain ⟨⟨⟨past, v⟩, later, s⟩, hs, hr⟩ := Option.map_eq_some_iff.mp hreplay
  simp only [Prod.mk.injEq, decide_eq_true_eq, List.length_eq_zero_iff] at hr
  obtain ⟨rfl, hsteps, hopen, hage⟩ := hr
  have hrun := (Run.start ⟨0, false, rfl⟩ : LoopRun { workerUuid := 0 } [] _).replayAround id hs
  rw [List.append_nil, List.nil_append] at hrun
  exact ⟨past, v, s, hrun, hage, (recentlyChecked_iff hrun hopen).mpr hsteps past v s hrun rfl⟩

/-- Steps without a registry check do not make the last one younger. -/
theorem lastChecked_append {cfg : MainLoopConfig} {s v : QueueWorker} {a : LoopAction}
    {past mid : List (QueueWorker × LoopAction)} (hmid : ∀ p ∈ mid, p.2 ≠ .checkRegistry)
    (ha : a ≠ .checkRegistry) :
    lastChecked cfg (mid ++ (v, a) :: past) s = lastChecked cfg past v := by
  induction mid generalizing s with
  | nil => exact if_neg fun h ↦ ha h.1
  | cons p mid ih =>
    rw [List.cons_append, lastChecked, if_neg fun h ↦ hmid p List.mem_cons_self h.1]
    exact ih fun q hq ↦ hmid q (List.mem_cons_of_mem _ hq)

/-- A job is taken when another has been running for any time, in calls of a twentieth of a
second. -/
theorem exists_lateAcquisition (n : Nat) : ∃ past v s,
    LoopRun { workerUuid := 0 } ((v, .acquireJob (.ok (some 2))) :: past) s ∧
      (∀ p ∈ past, p.2 ≠ .gate (.ok false)) ∧
      (∀ u ∈ states past v, u.now - u.callStart ≤ 50000) ∧
      stepBegan past = v.now ∧
      n * 50000 ≤ v.now - lastChecked { workerUuid := 0 } past v := by
  obtain ⟨past, mid, v, s, h, hnow, _, hopen, hbrisk, hw⟩ := exists_waiting n
  have hv : LoopRun { workerUuid := 0 } past v := (run_cons.mp h.split.choose_spec.1).1
  let s₁ := s.goto .gateBeforeAcquire
  let s₂ := (s₁.upgradeGateIsOpen true).goto .acquireJob
  have h₁ : LoopRun { workerUuid := 0 } _ s₁ := h.step (a := .read) (by
    simp [next, hw.pc, processJobs, hw.serving, hw.active, s₁])
  have h₂ : LoopRun { workerUuid := 0 } _ s₂ := h₁.step (a := .gate (.ok true)) rfl
  have h₃ : LoopRun { workerUuid := 0 } _ ((s₂.submit { workerUuid := 0 } 2).goto .slotCheck) :=
    h₂.step (a := .acquireJob (.ok (some 2))) rfl
  have hunchecked : ∀ p ∈ (s₁, .gate (.ok true)) :: (s, .read) :: mid, p.2 ≠ .checkRegistry := by
    intro p hp
    simp only [List.mem_cons] at hp
    rcases hp with rfl | rfl | hp
    · exact fun h ↦ by cases h
    · exact fun h ↦ by cases h
    · exact (hw.quiet p hp).2.2
  have hlast : lastChecked { workerUuid := 0 } ((s₁, .gate (.ok true)) :: (s, .read) ::
      (mid ++ (v, .acquireJob (.ok (some 1))) :: past)) s₂ =
        lastChecked { workerUuid := 0 } past v := by
    rw [← List.cons_append, ← List.cons_append]
    exact lastChecked_append hunchecked fun h ↦ by cases h
  refine ⟨_, s₂, _, h₃, fun p hp ↦ ?_, fun u hu ↦ ?_, ?_, ?_⟩
  · simp only [List.mem_cons, List.mem_append] at hp
    rcases hp with rfl | rfl | hp | rfl | hp
    · exact fun h ↦ by cases h
    · exact fun h ↦ by cases h
    · exact (hw.quiet p hp).2.1
    · exact fun h ↦ by cases h
    · exact hopen p hp
  · simp only [states, List.map_cons, List.map_append, List.mem_cons, List.mem_append] at hu
    rcases hu with rfl | rfl | rfl | hu | rfl | hu
    · simp [s₂, goto]
    · simp [s₁, goto]
    · exact hw.brisk u List.mem_cons_self
    · exact hw.brisk u (List.mem_cons_of_mem _ hu)
    · exact hbrisk u List.mem_cons_self
    · exact hbrisk u (List.mem_cons_of_mem _ hu)
  · simp [stepBegan, hw.pc, s₁, s₂, goto, upgradeGateIsOpen]
  · have hle := lastChecked_le hv
    rw [hlast]
    show (n : Int) * 50000 ≤ s.now - _
    rw [hw.now]
    linarith

/-- While a job is running, a job can be taken any time behind the last registry check. -/
theorem not_recentlyChecked_longJob :
    (∃ past v s, LoopRun { workerUuid := 0 } ((v, .acquireJob (.ok (some 2))) :: past) s ∧
      (∀ p ∈ past, p.2 ≠ .gate (.ok false)) ∧ ¬ RecentlyChecked { workerUuid := 0 } past v) ∧
    ¬ ∃ limit, ∀ past v s,
      LoopRun { workerUuid := 0 } ((v, .acquireJob (.ok (some 2))) :: past) s →
      (∀ p ∈ past, p.2 ≠ .gate (.ok false)) →
      (∀ u ∈ states past v, u.now - u.callStart ≤ 50000) →
      v.now - lastChecked { workerUuid := 0 } past v ≤ limit := by
  constructor
  · obtain ⟨past, v, s, h, hopen, _, hbegan, hage⟩ := exists_lateAcquisition 1200
    refine ⟨past, v, s, h, hopen, fun hrec ↦ ?_⟩
    rw [RecentlyChecked, hbegan, sub_self, add_zero] at hrec
    exact absurd (hage.trans hrec) (by decide)
  · rintro ⟨limit, hall⟩
    obtain ⟨past, v, s, h, hopen, hbrisk, _, hage⟩ := exists_lateAcquisition (limit.toNat + 1)
    have hle := hage.trans (hall past v s h hopen hbrisk)
    push_cast at hle
    linarith [Int.self_le_toNat limit, Int.natCast_nonneg limit.toNat]

end JobWorker
