import JobWorker.Cli.MainLoop
import JobWorker.Runs.GateBookkeeping

/-!
# A worker thread behind its gate

One gate serves a worker thread for its life, `job_worker/cli/runner.py:738–849`: the registry
load waits on it, and so does every cycle of the main loop, `job_worker/cli/worker.py:248–263`.
A call of the gate that finds its last probe recent returns at once, any other takes the time of
a probe. The runner gives every worker a gate, so `upgradeGate` of the loop is set.
-/

namespace JobWorker

open Transition

/-- Where a worker thread is: before or in the registry load, in the main loop, or at its end. -/
inductive GatedPhase
  | waiting (now : Time)
  | loading (since : Time)
  | serving (loop : QueueWorker)
  | ended

/-- A worker thread with its gate. -/
structure GatedThread where
  gate : CachedGate
  phase : GatedPhase

/-- What happens to a worker thread: it waits, calls its gate, loads the registry, is asked to
stop before that, or the main loop takes a step. A call of the gate that raises does so with
this exception. -/
inductive GatedAction
  | elapse (d : Nat)
  | awaitGate (took : Nat) (outcome : ProbeOutcome) (exc : LoopError)
  | load (took : Nat) (result : Except LoopError Unit) (stop : Bool)
  | giveUp
  | loop (a : LoopAction)
  | gateIsOpen (outcome : ProbeOutcome) (exc : LoopError)

/-- The row says that no module is in transition, partially updated or out of step. -/
def ProbeRow.stable (r : ProbeRow) : Prop := (probe r).isOpen = true

instance (r : ProbeRow) : Decidable r.stable := by unfold ProbeRow.stable; infer_instance

/-- The answer of a main loop's gate. -/
def LoopAction.isGate : LoopAction → Bool
  | .gate _ => true
  | _ => false

namespace GatedThread

variable (gcfg : UpgradeGateConfig) (cfg : MainLoopConfig) (s : GatedThread)

/-- A call of `is_open` from `now` to `later`; `cli/upgrade_gate.py:208–225`. -/
def isOpen (outcome : ProbeOutcome) (now later : Time) : Option (CachedGate × Option Bool) :=
  if s.gate.cached gcfg false now ∧ later ≠ now then none
  else (s.gate.check gcfg false outcome now later).map fun r ↦ (r.1, r.2.map GateState.isOpen)

/-- An exception in the registry load: a database error is retried, any other ends the thread;
`cli/runner.py:817–838`. -/
def raised (exc : LoopError) (now : Time) : GatedPhase :=
  match exc with
  | .transient | .database => .waiting now
  | .other => .ended

/-- One step, where it is possible. -/
def next (a : GatedAction) : Option GatedThread :=
  match s.phase, a with
  | .waiting now, .elapse d => some { s with phase := .waiting (now + d) }
  | .waiting now, .awaitGate took outcome exc =>
    (s.isOpen gcfg outcome now (now + took)).map fun r ↦
      match r.2 with
      | some true => ⟨r.1, .loading (now + took)⟩
      | some false => ⟨r.1, .waiting (now + took)⟩
      | none => ⟨r.1, raised exc (now + took)⟩
  | .waiting _, .giveUp => some { s with phase := .ended }
  | .loading since, .load took (.ok ()) stop =>
    some { s with phase := .serving (QueueWorker.create (since + took) stop).run }
  | .loading since, .load took (.error exc) _ =>
    some { s with phase := raised exc (since + took) }
  | .serving loop, .loop a =>
    if a.isGate then none else (loop.next cfg a).map fun loop ↦ { s with phase := .serving loop }
  | .serving loop, .gateIsOpen outcome exc =>
    (s.isOpen gcfg outcome loop.callStart loop.now).bind fun r ↦
      (loop.next cfg (.gate (match r.2 with
        | some isOpen => .ok isOpen
        | none => .error exc))).map fun loop ↦ ⟨r.1, .serving loop⟩
  | _, _ => none

/-- A thread starts with a new gate. -/
def Starts : Prop := ∃ now, s = ⟨{ now }, .waiting now⟩

/-- When the thread began the registry load, the registry check or the acquisition that it is
in. -/
def touching : Option Time :=
  match s.phase with
  | .loading since => some since
  | .serving loop =>
    if loop.pc = .checkRegistry ∨ loop.pc = .acquireJob then some loop.callStart else none
  | _ => none

/-- When a probe that is under way returns. -/
def returnsAt (a : GatedAction) : Option (ProbeOutcome × Time) :=
  match s.phase, a with
  | .waiting now, .awaitGate took outcome _ => some (outcome, now + took)
  | .serving loop, .gateIsOpen outcome _ => some (outcome, loop.now)
  | _, _ => none

/-- From `t` on no probe finds the modules stable. -/
def Upgrading (t : Time) (s : GatedThread) (a : GatedAction) : Prop :=
  ∀ p ∈ s.returnsAt a, ∀ r, p.1 = .row r → t ≤ p.2 → ¬ r.stable

instance (t : Time) (s : GatedThread) (a : GatedAction) : Decidable (s.Upgrading t a) := by
  have (p : ProbeOutcome × Time) : Decidable (∀ r, p.1 = .row r → t ≤ p.2 → ¬ r.stable) := by
    cases p.1 with
    | row r => exact decidable_of_iff (t ≤ p.2 → ¬ r.stable) (by simp)
    | databaseError | raised => exact isTrue (by simp)
  unfold Upgrading; infer_instance

end GatedThread

/-- Runs of a worker thread. -/
abbrev GatedRun (gcfg : UpgradeGateConfig) (cfg : MainLoopConfig) :
    List (GatedThread × GatedAction) → GatedThread → Prop :=
  Run GatedThread.Starts fun s a s' ↦ s.next gcfg cfg a = some s'

namespace CachedGate

variable {gcfg : UpgradeGateConfig} {g g' : CachedGate} {state : GateState} {now later : Time}

/-- A record stores the state and leaves the time of the probe alone. -/
theorem record_eq (h : g.record gcfg state now later = some g') :
    g'.state = state ∧ g'.checkedAt = g.checkedAt := by
  obtain ⟨missingWarned, log, hwarn⟩ := warnMissing_eq g state.missing
  rw [record, hwarn] at h
  dsimp only at h
  split at h
  · rw [recordOpen] at h
    dsimp only at h
    split at h
    · cases h
      exact ⟨rfl, rfl⟩
    · obtain ⟨since, _, rfl⟩ := Option.map_eq_some_iff.mp h
      exact ⟨rfl, rfl⟩
  · cases hprevious : g.state.isOpen with
    | true =>
      simp only [hprevious, if_true, true_or, Option.some.injEq] at h
      subst h
      exact ⟨rfl, rfl⟩
    | false =>
      simp only [hprevious, Bool.false_eq_true, if_false, false_or] at h
      split at h
      · cases h
        exact ⟨rfl, rfl⟩
      · rw [remind] at h
        obtain ⟨since, _, h⟩ := Option.bind_eq_some_iff.mp h
        dsimp only at h
        split at h
        · cases h
          exact ⟨rfl, rfl⟩
        · obtain ⟨reminded, _, rfl⟩ := Option.map_eq_some_iff.mp h
          split <;> exact ⟨rfl, rfl⟩

/-- What a call of an enabled gate does: it answers from its last probe, it raises, or it has
probed. -/
theorem check_cases {outcome : ProbeOutcome} {ans : Option GateState}
    (henabled : gcfg.enabled = true)
    (h : g.check gcfg false outcome now later = some (g', ans)) :
    (g.cached gcfg false now = true ∧ g' = g ∧ ans = some g.state) ∨
      (g' = g ∧ ans = none) ∨
      ∃ state, probeOnce outcome = some state ∧ ans = some state ∧ g'.state = state ∧
        g'.checkedAt = some now := by
  rw [check, if_neg (not_not.mpr henabled)] at h
  split at h
  · next hc =>
    cases h
    exact .inl ⟨hc, rfl, rfl⟩
  · split at h
    · cases h
      exact .inr (.inl ⟨rfl, rfl⟩)
    · next state hprobe =>
      obtain ⟨g₁, hrecord, heq⟩ := Option.map_eq_some_iff.mp h
      cases heq
      obtain ⟨hstate, hchecked⟩ := record_eq hrecord
      exact .inr (.inr ⟨state, hprobe, rfl, hstate, hchecked⟩)

end CachedGate

/-- An open answer of a probe comes from a row that says that the modules are stable. -/
theorem stable_of_probeOnce {outcome : ProbeOutcome} {state : GateState}
    (h : probeOnce outcome = some state) (hopen : state.isOpen = true) :
    ∃ r, outcome = .row r ∧ r.stable := by
  cases outcome with
  | row r =>
    cases h
    exact ⟨r, rfl, hopen⟩
  | databaseError pgcode =>
    rw [probeOnce] at h
    split at h
    · cases h
      cases hopen
    · cases h
  | raised => cases h

/-- A later reading of the clock is further away. -/
theorem secondsFrom_lt {t u now : Time} (h : t < u) : secondsFrom u now < secondsFrom t now := by
  have hsecond : (0 : ℚ) < (second : ℚ) := by norm_num [second]
  rw [secondsFrom, secondsFrom, div_lt_div_iff_of_pos_right hsecond, Int.cast_lt]
  dsimp only [Time] at *
  omega

/-- Before `t` no second has gone by. -/
theorem secondsFrom_neg {t now : Time} (h : now < t) : secondsFrom t now < 0 := by
  have hsecond : (0 : ℚ) < (second : ℚ) := by norm_num [second]
  apply div_neg_of_neg_of_pos _ hsecond
  rw [Int.cast_lt_zero]
  dsimp only [Time] at *
  omega

namespace GatedThread

variable {gcfg : UpgradeGateConfig} {cfg : MainLoopConfig} {s s' : GatedThread}
  {a : GatedAction} {past : List (GatedThread × GatedAction)} {t : Time}

/-- An open gate has been probed before `t`. -/
def ProbedBefore (t : Time) (g : CachedGate) : Prop :=
  g.state.isOpen = true → ∀ u, g.checkedAt = some u → u < t

/-- The clock of the main loop does not run backwards in a call. -/
def InCall (s : GatedThread) : Prop := ∀ loop, s.phase = .serving loop → loop.callStart ≤ loop.now

/-- A call of the gate that finds no stable modules from `t` on answers open for less than the
interval behind `t`. -/
theorem isOpen_cases {outcome : ProbeOutcome} {now later : Time} {g' : CachedGate}
    {ans : Option Bool} (henabled : gcfg.enabled = true)
    (h : s.isOpen gcfg outcome now later = some (g', ans)) (hle : now ≤ later)
    (hprobed : ProbedBefore t s.gate)
    (hup : ∀ r, outcome = .row r → t ≤ later → ¬ r.stable) :
    ProbedBefore t g' ∧ (ans = some true → secondsFrom t later < gcfg.intervalSeconds) := by
  have hpos : 0 < gcfg.intervalSeconds := lt_max_of_lt_left (by norm_num)
  rw [isOpen] at h
  split at h
  · cases h
  next hinstant =>
  obtain ⟨⟨g₁, ans₁⟩, hcheck, heq⟩ := Option.map_eq_some_iff.mp h
  cases heq
  rcases CachedGate.check_cases henabled hcheck with
    ⟨hcached, rfl, rfl⟩ | ⟨rfl, rfl⟩ | ⟨state, hprobe, rfl, hstate, hchecked⟩
  · refine ⟨hprobed, fun hans ↦ ?_⟩
    have hlater : later = now := by
      by_contra hne
      exact hinstant ⟨hcached, hne⟩
    obtain ⟨u, hu, hrecent⟩ := (Option.any_eq_true _ _).mp (Bool.and_eq_true_iff.mp hcached).2
    have hbefore := hprobed (Option.some.inj hans) u hu
    rw [hlater]
    exact (secondsFrom_lt hbefore).trans (of_decide_eq_true hrecent)
  · exact ⟨hprobed, fun hans ↦ by cases hans⟩
  · -- A new probe: an open answer means that it has returned before `t`.
    have hopen (ho : state.isOpen = true) : later < t := by
      obtain ⟨r, hr, hstable⟩ := stable_of_probeOnce hprobe ho
      by_contra hn
      exact hup r hr (not_lt.mp hn) hstable
    constructor
    · intro ho u hu
      rw [hstate] at ho
      rw [hchecked, Option.some.injEq] at hu
      exact hu ▸ hle.trans_lt (hopen ho)
    · intro hans
      exact (secondsFrom_neg (hopen (Option.some.inj hans))).trans hpos

/-- What every step keeps while the modules are not stable from `t` on. -/
structure Gated (gcfg : UpgradeGateConfig) (t : Time) (s : GatedThread) : Prop where
  inCall : s.InCall
  probed : ProbedBefore t s.gate
  touching : ∀ u, s.touching = some u → secondsFrom t u < gcfg.intervalSeconds

/-- A step of the main loop begins its calls at the clock. -/
theorem inCall_next {s s' : QueueWorker} {a : LoopAction} (h : s.next cfg a = some s')
    (hle : s.callStart ≤ s.now) : s'.callStart ≤ s'.now := by
  cases QueueWorker.effect_of_next h with
  | tick => exact hle.trans (le_add_of_nonneg_right (Int.natCast_nonneg _))
  | stop | finish => exact hle
  | _ => exact le_rfl

/-- The main loop checks the registry and acquires behind an open answer only. -/
theorem touching_next {s s' : QueueWorker} {a : LoopAction} (h : s.next cfg a = some s')
    (hpc : s'.pc = .checkRegistry ∨ s'.pc = .acquireJob) :
    a = .gate (.ok true) ∧ s'.callStart = s.now ∨
      a.isGate = false ∧ s'.callStart = s.callStart ∧ s'.pc = s.pc := by
  cases QueueWorker.effect_of_next h with
  | tick | stop | finish => exact .inr ⟨rfl, rfl, rfl⟩
  | openAtTop | openBeforeAcquire => exact .inl ⟨rfl, rfl⟩
  | _ => rcases hpc with hpc | hpc <;> cases hpc

/-- A phase in which nothing is touched. -/
theorem gated_of_idle {g : CachedGate} {phase : GatedPhase} (hprobed : ProbedBefore t g)
    (hphase : ∀ loop, phase ≠ .serving loop) (hload : ∀ u, phase ≠ .loading u) :
    Gated gcfg t ⟨g, phase⟩ where
  inCall loop hs := absurd hs (hphase loop)
  probed := hprobed
  touching u hu := by
    rw [GatedThread.touching] at hu
    cases phase with
    | loading v => exact absurd rfl (hload v)
    | serving loop => exact absurd rfl (hphase loop)
    | waiting | ended => cases hu

/-- A phase in the main loop. -/
theorem gated_of_serving {g : CachedGate} {loop : QueueWorker} (hprobed : ProbedBefore t g)
    (hle : loop.callStart ≤ loop.now)
    (htouch : loop.pc = .checkRegistry ∨ loop.pc = .acquireJob →
      secondsFrom t loop.callStart < gcfg.intervalSeconds) :
    Gated gcfg t ⟨g, .serving loop⟩ where
  inCall loop' hs := by
    cases hs
    exact hle
  probed := hprobed
  touching u hu := by
    obtain ⟨hpc, hu⟩ := Option.ite_none_right_eq_some.mp hu
    rw [← Option.some.inj hu]
    exact htouch hpc

/-- An exception in the registry load leaves nothing touched. -/
theorem gated_raised {g : CachedGate} {exc : LoopError} {now : Time}
    (hprobed : ProbedBefore t g) : Gated gcfg t ⟨g, raised exc now⟩ := by
  apply gated_of_idle hprobed <;> cases exc <;> simp [raised]

/-- A call of the gate while the thread waits to load the registry. -/
theorem gated_awaitGate {now : Time} {took : Nat} {outcome : ProbeOutcome} {exc : LoopError}
    (henabled : gcfg.enabled = true) (hphase : s.phase = .waiting now)
    (hs : s.next gcfg cfg (.awaitGate took outcome exc) = some s')
    (hup : s.Upgrading t (.awaitGate took outcome exc)) (h : Gated gcfg t s) :
    Gated gcfg t s' := by
  simp only [next, hphase] at hs
  obtain ⟨⟨g, ans⟩, hopen, rfl⟩ := Option.map_eq_some_iff.mp hs
  obtain ⟨hprobed, hans⟩ := isOpen_cases henabled hopen
    (le_add_of_nonneg_right (Int.natCast_nonneg _)) h.probed
    fun r hr hle ↦ hup (outcome, now + took) (by simp only [returnsAt, hphase, Option.mem_def]) r hr
      hle
  cases ans with
  | none => exact gated_raised hprobed
  | some isOpen =>
    cases isOpen with
    | false => exact gated_of_idle hprobed (by simp) (by simp)
    | true =>
      constructor
      · exact fun loop hs ↦ by cases hs
      · exact hprobed
      · intro u hu
        cases hu
        exact hans rfl

/-- A call of the gate in the main loop. -/
theorem gated_gateIsOpen {loop : QueueWorker} {outcome : ProbeOutcome} {exc : LoopError}
    (henabled : gcfg.enabled = true) (hphase : s.phase = .serving loop)
    (hs : s.next gcfg cfg (.gateIsOpen outcome exc) = some s')
    (hup : s.Upgrading t (.gateIsOpen outcome exc)) (h : Gated gcfg t s) : Gated gcfg t s' := by
  simp only [next, hphase] at hs
  obtain ⟨⟨g, ans⟩, hopen, hs⟩ := Option.bind_eq_some_iff.mp hs
  obtain ⟨loop', hloop, rfl⟩ := Option.map_eq_some_iff.mp hs
  have hle := h.inCall loop hphase
  obtain ⟨hprobed, hans⟩ := isOpen_cases henabled hopen hle h.probed
    fun r hr hle ↦ hup (outcome, loop.now) (by simp only [returnsAt, hphase, Option.mem_def]) r hr
      hle
  refine gated_of_serving hprobed (inCall_next hloop hle) fun hpc ↦ ?_
  rcases touching_next hloop hpc with ⟨ha, hstart⟩ | ⟨ha, _⟩
  · rw [hstart]
    apply hans
    cases ans with
    | none => cases ha
    | some isOpen =>
      cases ha
      rfl
  · cases ha

/-- Every step keeps the gate. -/
theorem gated_next (henabled : gcfg.enabled = true) (hs : s.next gcfg cfg a = some s')
    (hup : s.Upgrading t a) (h : Gated gcfg t s) : Gated gcfg t s' := by
  cases hphase : s.phase with
  | waiting now =>
    cases a with
    | elapse d =>
      simp only [next, hphase] at hs
      cases hs
      exact gated_of_idle h.probed (by simp) (by simp)
    | awaitGate took outcome exc => exact gated_awaitGate henabled hphase hs hup h
    | giveUp =>
      simp only [next, hphase] at hs
      cases hs
      exact gated_of_idle h.probed (by simp) (by simp)
    | load took result stop =>
      cases result <;> simp only [next, hphase] at hs <;> cases hs
    | loop | gateIsOpen =>
      simp only [next, hphase] at hs
      cases hs
  | loading since =>
    cases a with
    | load took result stop =>
      cases result with
      | error exc =>
        simp only [next, hphase] at hs
        cases hs
        exact gated_raised h.probed
      | ok =>
        simp only [next, hphase] at hs
        cases hs
        apply gated_of_serving h.probed
        · rw [QueueWorker.run]
          split <;> exact le_rfl
        · rw [QueueWorker.run]
          split <;> simp [QueueWorker.poolShutdown, QueueWorker.goto]
    | elapse | awaitGate | giveUp | loop | gateIsOpen =>
      simp only [next, hphase] at hs
      cases hs
  | serving loop =>
    cases a with
    | loop b =>
      simp only [next, hphase] at hs
      obtain ⟨hgate, hs⟩ := Option.ite_none_left_eq_some.mp hs
      obtain ⟨loop', hloop, rfl⟩ := Option.map_eq_some_iff.mp hs
      refine gated_of_serving h.probed (inCall_next hloop (h.inCall loop hphase)) fun hpc ↦ ?_
      rcases touching_next hloop hpc with ⟨rfl, _⟩ | ⟨_, hstart, hsame⟩
      · exact absurd rfl hgate
      · rw [hstart]
        rw [hsame] at hpc
        exact h.touching _ (by rw [touching, hphase]; exact if_pos hpc)
    | gateIsOpen outcome exc => exact gated_gateIsOpen henabled hphase hs hup h
    | load took result stop =>
      cases result <;> simp only [next, hphase] at hs <;> cases hs
    | elapse | awaitGate | giveUp =>
      simp only [next, hphase] at hs
      cases hs
  | ended =>
    cases a with
    | load took result stop =>
      cases result <;> simp only [next, hphase] at hs <;> cases hs
    | _ =>
      simp only [next, hphase] at hs
      cases hs

/-- A probe, a registry load, and a cycle that still finds the probe recent when an upgrade has
begun. -/
def upgradeBegins : List GatedAction :=
  let upgrading : ProbeOutcome := .row ⟨some ["sale"], false, none, none⟩
  [.awaitGate 0 (.row ⟨none, false, none, none⟩) .other, .load 1000000 (.ok ()) false,
    .loop (.tick 2000000), .loop (.listen (.ok ())), .gateIsOpen upgrading .other,
    .loop .checkRegistry, .loop .read, .gateIsOpen upgrading .other]

/-- **An upgrade is left alone**: if from `t` on no probe finds the modules stable, then the
thread begins no registry load, registry check or acquisition `interval_seconds` after `t` or
later. -/
theorem touching_lt_interval (h : GatedRun gcfg cfg past s) (henabled : gcfg.enabled = true)
    (hup : Guarded (Upgrading t) past) :
    ∀ u, s.touching = some u → secondsFrom t u < gcfg.intervalSeconds := by
  have hgated : Gated gcfg t s := h.invariant hup
    (fun s hstart ↦ by
      obtain ⟨now, rfl⟩ := hstart
      exact gated_of_idle (fun _ u hu ↦ by cases hu) (by simp) (by simp))
    fun s a s' hg ha hs ↦ gated_next henabled hs ha hg
  exact hgated.touching

/-- The worker acquires a second after the upgrade has begun, since its probe is three seconds
old. -/
theorem touching_lt_interval_upgradeBegins : ∃ past s, GatedRun {} { workerUuid := 1 } past s ∧
    s.touching = some 3000000 ∧ secondsFrom 2000000 3000000 <
      UpgradeGateConfig.intervalSeconds {} := by
  have hrun : (replay (next {} { workerUuid := 1 }) ⟨{ now := 0 }, .waiting 0⟩ upgradeBegins).map
      (fun r ↦ (r.2.touching, r.1.all fun p ↦ decide (p.1.Upgrading 2000000 p.2))) =
      some (some 3000000, true) := by
    decide +kernel
  obtain ⟨⟨past, s⟩, hreplay, heq⟩ := Option.map_eq_some_iff.mp hrun
  simp only [Prod.mk.injEq, List.all_eq_true, decide_eq_true_eq] at heq
  have h : GatedRun {} { workerUuid := 1 } past s := Run.of_replay id ⟨0, rfl⟩ hreplay
  exact ⟨past, s, h, heq.1, touching_lt_interval h rfl heq.2 _ heq.1⟩

end GatedThread

end JobWorker
