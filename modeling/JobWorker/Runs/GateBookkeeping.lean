import JobWorker.Cli.UpgradeGate
import Mathlib.Algebra.Order.Field.Rat
import Mathlib.Data.Rat.Cast.Order
import Mathlib.Tactic.NormNum
import Mathlib.Tactic.Positivity

/-!
# The bookkeeping of the upgrade gate

The pause clock of a gate against the history of its probes
(`job_worker/cli/upgrade_gate.py:211–337`).
-/

namespace JobWorker

open Transition

namespace CachedGate

variable (cfg : UpgradeGateConfig)

/-- The probe that a call completes, with the reading of the clock before it. -/
def completedProbe (g : CachedGate) (c : CheckCall) : Option (Time × GateState) :=
  if cfg.enabled ∧ ¬ g.cached cfg c.force (g.now + c.elapsed) then
    (probeOnce c.outcome).map fun state ↦ (g.now + c.elapsed, state)
  else none

/-- The completed probes of a run, the newest first. -/
def completedProbes (past : List (CachedGate × CheckCall)) : List (Time × GateState) :=
  past.filterMap fun p ↦ p.1.completedProbe cfg p.2

end CachedGate

/-- The state of the latest completed probe. -/
def latestState (probes : List (Time × GateState)) : GateState :=
  (probes.head?.map Prod.snd).getD .opened

/-- The time of the first closed probe since the last open one. -/
def closedPeriod (probes : List (Time × GateState)) : Option Time :=
  (probes.takeWhile fun p ↦ !p.2.isOpen).getLast?.map Prod.fst

section History

variable {t : Time} {state : GateState} {probes : List (Time × GateState)}

@[simp]
theorem latestState_cons : latestState ((t, state) :: probes) = state := rfl

/-- One more probe ends the closed period, begins it or lets it go on. -/
theorem closedPeriod_cons : closedPeriod ((t, state) :: probes) =
    if state.isOpen then none else some ((closedPeriod probes).getD t) := by
  cases hopen : state.isOpen with
  | true => simp [closedPeriod, hopen]
  | false =>
    simp only [closedPeriod, List.takeWhile_cons, hopen, Bool.not_false, if_true,
      List.getLast?_cons, Bool.false_eq_true, if_false]
    cases (probes.takeWhile fun p ↦ !p.2.isOpen).getLast? with
    | none => rfl
    | some p => rfl

end History

namespace CachedGate

/-- The timestamps of a gate are set exactly while it is closed. -/
structure Bookkept (g : CachedGate) : Prop where
  closedSince : g.closedSince = none ↔ g.state.isOpen = true
  lastReminderAt : g.lastReminderAt = none ↔ g.state.isOpen = true

/-- What a completed probe at `now` leaves of the timestamps of `g`. -/
structure Recorded (g : CachedGate) (probed : GateState) (now : Time) (g' : CachedGate) :
    Prop where
  state : g'.state = probed
  closedSince : g'.closedSince = if probed.isOpen then none else some (g.closedSince.getD now)
  lastReminderAt : g'.lastReminderAt = none ↔ probed.isOpen = true

section Record

variable (cfg : UpgradeGateConfig) {g : CachedGate} (state : GateState) (now later : Time)

/-- A warning leaves the state and the timestamps alone. -/
theorem warnMissing_eq (g : CachedGate) (names : List String) :
    ∃ missingWarned log, g.warnMissing names = { g with missingWarned, log } := by
  simp only [warnMissing]
  split
  · exact ⟨_, _, rfl⟩
  · exact ⟨_, _, rfl⟩

/-- An open probe can say for how long the gate was closed. -/
theorem recordOpen_isSome {previous : GateState} (hopen : g.state.isOpen = true)
    (h : g.closedSince = none → previous.isOpen = true) :
    ∃ g', g.recordOpen previous now = some g' ∧ g.Recorded g.state now g' := by
  simp only [recordOpen]
  split
  · exact ⟨_, rfl, rfl, (if_pos hopen).symm, iff_of_true rfl hopen⟩
  · rename_i hprevious
    obtain ⟨since, hs⟩ := Option.ne_none_iff_exists'.mp (mt h hprevious)
    rw [hs]
    exact ⟨_, rfl, rfl, (if_pos hopen).symm, iff_of_true rfl hopen⟩

/-- A pause that goes on keeps its start and has a reminder to count from. -/
theorem remind_isSome (hclosed : g.state.isOpen = false) (hs : g.closedSince ≠ none)
    (hr : g.lastReminderAt ≠ none) :
    ∃ g', g.remind cfg state now later = some g' ∧ g.Recorded g.state now g' := by
  obtain ⟨since, hs⟩ := Option.ne_none_iff_exists'.mp hs
  obtain ⟨reminded, hr⟩ := Option.ne_none_iff_exists'.mp hr
  have hkept {g' : CachedGate} (hstate : g'.state = g.state)
      (hsince : g'.closedSince = g.closedSince) (hrem : g'.lastReminderAt ≠ none) :
      g.Recorded g.state now g' :=
    ⟨hstate, by simp [hsince, hs, hclosed], by simp [hrem, hclosed]⟩
  simp only [remind, hs, hr, Option.bind_some, Option.map_some]
  split
  · exact ⟨_, rfl, hkept rfl hs.symm nofun⟩
  · split
    · exact ⟨_, rfl, hkept rfl hs.symm nofun⟩
    · exact ⟨_, rfl, hkept rfl rfl (by simp [hr])⟩

/-- `_record` of a bookkept gate never meets a missing timestamp. -/
theorem record_isSome (hg : g.Bookkept) :
    ∃ g', g.record cfg state now later = some g' ∧ g.Recorded state now g' := by
  obtain ⟨missingWarned, log, hwarn⟩ := g.warnMissing_eq state.missing
  simp only [record, hwarn]
  cases hopen : state.isOpen with
  | true =>
    obtain ⟨g', heq, hrec⟩ := recordOpen_isSome (g := { g with state, missingWarned, log })
      now hopen hg.closedSince.mp
    exact ⟨g', heq, hrec.state, hrec.closedSince, hrec.lastReminderAt⟩
  | false =>
    simp only [Bool.false_eq_true, if_false]
    cases hprevious : g.state.isOpen with
    | true =>
      have hs : g.closedSince = none := hg.closedSince.mpr hprevious
      simp only [if_true, true_or]
      exact ⟨_, rfl, rfl, by simp [hopen, hs], by simp [hopen]⟩
    | false =>
      have hs : g.closedSince ≠ none := by simp [hg.closedSince, hprevious]
      have hr : g.lastReminderAt ≠ none := by simp [hg.lastReminderAt, hprevious]
      simp only [Bool.false_eq_true, if_false, false_or]
      split
      · obtain ⟨since, hs⟩ := Option.ne_none_iff_exists'.mp hs
        exact ⟨_, rfl, rfl, by simp [hopen, hs], by simp [hopen, hr]⟩
      · obtain ⟨g', heq, hrec⟩ := remind_isSome (g := { g with state, missingWarned, log })
          cfg state now later hopen hs hr
        exact ⟨g', heq, hrec.state, hrec.closedSince, hrec.lastReminderAt⟩

end Record

section Runs

variable {cfg : UpgradeGateConfig} {g : CachedGate} {past : List (CachedGate × CheckCall)}

/-- The state and the clock of a gate tell the history of its probes. -/
structure Tracks (cfg : UpgradeGateConfig) (probes : List (Time × GateState)) (g : CachedGate) :
    Prop extends Bookkept g where
  state : g.state = latestState probes
  period : g.closedSince = closedPeriod probes
  disabled : cfg.enabled = false → g.state = .opened

theorem completedProbes_cons (c : CheckCall) :
    completedProbes cfg ((g, c) :: past) =
      (g.completedProbe cfg c).toList ++ completedProbes cfg past := by
  cases h : g.completedProbe cfg c with
  | none => simp [completedProbes, h]
  | some p => simp [completedProbes, h]

/-- A call that completes no probe leaves the gate alone. -/
theorem call_of_none {c : CheckCall} (hdisabled : cfg.enabled = false → g.state = .opened)
    (h : g.completedProbe cfg c = none) :
    ∃ answer, g.call cfg c = some ({ g with now := g.now + c.elapsed + c.took }, answer) ∧
      ∀ state, answer = some state → state = g.state := by
  simp only [CachedGate.call, check]
  split
  · rename_i henabled
    have hopened : g.state = .opened := hdisabled (by simpa using henabled)
    exact ⟨_, rfl, fun state h ↦ (Option.some.inj h).symm.trans hopened.symm⟩
  · split
    · exact ⟨_, rfl, fun state h ↦ (Option.some.inj h).symm⟩
    · rename_i henabled hcached
      have hprobe : probeOnce c.outcome = none := by
        simpa [completedProbe, hcached, not_not.mp henabled] using h
      rw [hprobe]
      exact ⟨none, rfl, nofun⟩

/-- A call that completes a probe records it. -/
theorem call_of_some {c : CheckCall} {t : Time} {state : GateState} (hg : g.Bookkept)
    (h : g.completedProbe cfg c = some (t, state)) :
    cfg.enabled = true ∧
      ∃ g', g.call cfg c = some (g', some state) ∧ g.Recorded state t g' := by
  simp only [completedProbe] at h
  split at h
  · rename_i hp
    obtain ⟨_, hprobe, heq⟩ := Option.map_eq_some_iff.mp h
    cases heq
    obtain ⟨g', hrecord, hrec⟩ :=
      record_isSome (g := { g with checkedAt := some (g.now + c.elapsed) }) cfg state
        (g.now + c.elapsed) (g.now + c.elapsed + c.took)
        ⟨hg.closedSince, hg.lastReminderAt⟩
    refine ⟨hp.1, { g' with now := g.now + c.elapsed + c.took }, ?_, hrec.state,
      hrec.closedSince, hrec.lastReminderAt⟩
    simp only [CachedGate.call, check, hp.1, hp.2, hprobe, hrecord]
    rfl
  · cases h

/-- A call ends and tracks the probe that it completes, if any. -/
theorem Tracks.call {probes : List (Time × GateState)} (hg : Tracks cfg probes g)
    (c : CheckCall) :
    ∃ g' answer, g.call cfg c = some (g', answer) ∧
      Tracks cfg ((g.completedProbe cfg c).toList ++ probes) g' ∧
      ∀ state, answer = some state → state = g'.state := by
  cases h : g.completedProbe cfg c with
  | none =>
    obtain ⟨answer, heq, hanswer⟩ := call_of_none hg.disabled h
    exact ⟨_, answer, heq,
      ⟨⟨hg.closedSince, hg.lastReminderAt⟩, hg.state, hg.period, hg.disabled⟩, hanswer⟩
  | some p =>
    obtain ⟨t, state⟩ := p
    obtain ⟨henabled, g', heq, hrec⟩ := call_of_some hg.toBookkept h
    have hsince : g'.closedSince = none ↔ g'.state.isOpen = true := by
      rw [hrec.closedSince, hrec.state]
      split <;> simp [*]
    have hperiod : g'.closedSince = closedPeriod ((t, state) :: probes) := by
      rw [hrec.closedSince, hg.period, closedPeriod_cons]
    refine ⟨g', some state, heq, ⟨⟨hsince, ?_⟩, hrec.state, hperiod, ?_⟩, ?_⟩
    · rw [hrec.lastReminderAt, hrec.state]
    · rw [henabled]
      exact nofun
    · exact fun state h ↦ (Option.some.inj h).symm.trans hrec.state.symm

/-- A gate tracks its probes over every run. -/
theorem tracks_run (h : GateRun cfg past g) : Tracks cfg (completedProbes cfg past) g := by
  induction h with
  | start h =>
    obtain ⟨now, rfl⟩ := h
    exact ⟨⟨iff_of_true rfl rfl, iff_of_true rfl rfl⟩, rfl, rfl, fun _ ↦ rfl⟩
  | step h hs ih =>
    obtain ⟨r, hcall, rfl⟩ := Option.map_eq_some_iff.mp hs
    obtain ⟨g', answer, heq, htracks, _⟩ := ih.call _
    rw [completedProbes_cons]
    cases hcall.symm.trans heq
    exact htracks

/-- A pause is overdue from the threshold on, and no threshold makes no pause overdue. -/
theorem isOverdue_iff (t : Time) : g.isOverdue cfg t = true ↔
    0 < cfg.unhealthyAfterSeconds ∧ ∃ since, g.closedSince = some since ∧
      cfg.unhealthyAfterSeconds ≤ secondsFrom since t := by
  have hnonneg : 0 ≤ cfg.unhealthyAfterSeconds := le_max_left _ _
  cases hs : g.closedSince with
  | none => simp [isOverdue, hs]
  | some since =>
    by_cases hzero : cfg.unhealthyAfterSeconds = 0
    · simp [isOverdue, hzero]
    · have hpos := lt_of_le_of_ne hnonneg (Ne.symm hzero)
      simp [isOverdue, secondsClosed, hs, hzero, hpos, not_le.mpr hpos]

/-- With a threshold of whole seconds the degraded signal reads this gate. -/
theorem isOverdue_eq {n : Nat} (hn : cfg.unhealthyAfterSeconds = n) (t : Time) :
    g.isOverdue cfg t = (UpgradeGate.mk n g.closedSince).isOverdue t := by
  cases hs : g.closedSince with
  | none => simp [isOverdue, UpgradeGate.isOverdue, hs]
  | some since =>
    rcases Nat.eq_zero_or_pos n with rfl | hpos
    · simp [isOverdue, UpgradeGate.isOverdue, hn]
    · have hq : (0 : ℚ) < n := Nat.cast_pos.mpr hpos
      have hle : (n : ℚ) ≤ secondsFrom since t ↔ n * second ≤ t - since := by
        rw [secondsFrom, le_div_iff₀ (by decide +kernel)]
        exact_mod_cast Iff.rfl
      have hsecond : (0 : Int) < second := by decide
      have hthreshold : (0 : Int) < n * second := by positivity
      simp [isOverdue, UpgradeGate.isOverdue, hs, hn, secondsClosed, hpos.ne', not_le.mpr hq,
        not_le.mpr hthreshold, hle]

end Runs

end CachedGate

open CachedGate

/-- Behind every call, the pause clock of a gate shows the first closed probe since the last
open one, the answer is the latest completed probe, and the gate is overdue once the closed
period has lasted for the threshold; no call meets a missing timestamp. -/
theorem upgradeGate_bookkeeping {cfg : UpgradeGateConfig} {past : List (CachedGate × CheckCall)}
    {g : CachedGate} (h : GateRun cfg past g) (c : CheckCall) :
    ∃ g' answer, g.call cfg c = some (g', answer) ∧
      (g'.closedSince = none ↔ g'.state.isOpen = true) ∧
      g'.closedSince = closedPeriod (completedProbes cfg ((g, c) :: past)) ∧
      (∀ state, answer = some state →
        state = latestState (completedProbes cfg ((g, c) :: past))) ∧
      ∀ t, g'.isOverdue cfg t = true ↔
        0 < cfg.unhealthyAfterSeconds ∧
          ∃ since, closedPeriod (completedProbes cfg ((g, c) :: past)) = some since ∧
            cfg.unhealthyAfterSeconds ≤ secondsFrom since t := by
  obtain ⟨g', answer, heq, htracks, hanswer⟩ := (tracks_run h).call c
  rw [← completedProbes_cons] at htracks
  refine ⟨g', answer, heq, htracks.closedSince, htracks.period, ?_, fun t ↦ ?_⟩
  · exact fun state hs ↦ (hanswer state hs).trans htracks.state
  · rw [isOverdue_iff, htracks.period]

/-- A pause with a reason that changes, and with a probe that fails, counts from its start. -/
theorem upgradeGate_bookkeeping_paused :
    ∃ past g, GateRun {} past g ∧ ∃ c g' answer, g.call {} c = some (g', answer) ∧
      g'.closedSince = some 0 ∧ g'.isOverdue {} (3600 * second) = true := by
  let blocked : CheckCall := ⟨0, false, .databaseError (some "55P03"), 2⟩
  let failing : CheckCall := ⟨6000000, false, .raised, 0⟩
  let flagged : CheckCall := ⟨1000000, true, .row ⟨none, true, none, none⟩, 0⟩
  have hrun : (replay (CachedGate.next {}) { now := 0 } [blocked, failing]).any (fun r ↦
      decide (closedPeriod (completedProbes {} ((r.2, flagged) :: r.1)) = some 0)) = true := by
    decide +kernel
  obtain ⟨⟨past, g⟩, hs, hperiod⟩ := (Option.any_eq_true _ _).mp hrun
  have hperiod := of_decide_eq_true hperiod
  have hrun : GateRun {} past g := .of_replay id ⟨0, rfl⟩ hs
  obtain ⟨g', answer, heq, _, hsince, _, hoverdue⟩ := upgradeGate_bookkeeping hrun flagged
  refine ⟨past, g, hrun, flagged, g', answer, heq, hsince.trans hperiod, ?_⟩
  exact (hoverdue _).mpr ⟨by decide +kernel, 0, hperiod, by decide +kernel⟩

end JobWorker
