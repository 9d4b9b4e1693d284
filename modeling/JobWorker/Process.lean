import JobWorker.Cli.MainLoop
import JobWorker.History

/-!
# A worker process and the database

One worker process runs against the job table that it shares with every other worker and
caller. Its main thread acquires jobs and sends the batch heartbeat; each of its pool
threads executes an attempt, whose own heartbeat loop beats until it fires the timeout. A
move is one step of the process, of the database, or of both where the process has a
transaction committed.
-/

namespace JobWorker

open Transition World

/-- The database with its attempts, the main loop of one worker, and the attempts whose
heartbeat loop has fired the timeout. -/
structure Process where
  world : World
  loop : QueueWorker
  fired : List Nat := []

/-- The moves of a process and its surroundings. -/
inductive Move
  | tick (elapsed : Nat)
  | acquireJob (limits : QueueLimits) (locked : JobId → Bool)
  | updateHeartbeats
  | loop (a : LoopAction)
  | fire (a : Attempt)
  | database (e : Event)

/-- `_acquire_job` without limits and without locked rows. -/
def Move.acquire : Move := .acquireJob (fun _ ↦ none) fun _ ↦ false

/-- The attempt whose thread returns behind the event. -/
def Event.ends : Event → Option Attempt
  | .clearWorkerOwnership a | .die a | .finalizeJob a _ | .handleException a _ _ => some a
  | _ => none

/-- The main loop moves without a transaction that commits. -/
def LoopAction.silent : LoopAction → Bool
  | .tick _ | .finish _ | .acquireJob (.ok _) | .updateHeartbeats (.ok _) => false
  | _ => true

/-- An attempt behind an event was there before and has not ended, or the event has acquired
its job. -/
theorem World.mem_attemptsAfter {w : World} {e : Event} {b : Attempt}
    (h : b ∈ w.attemptsAfter e) :
    (b ∈ w.attempts ∧ ∀ a, e.ends = some a → b.id ≠ a.id) ∨
      ∃ cfg limits locked job, e = .acquireJobLock cfg limits locked ∧
        (acquireJobLock cfg limits locked w.now w.store).2 = some job ∧
        b = ⟨w.nextAttempt, cfg, job⟩ := by
  cases e with
  | acquireJobLock cfg limits locked =>
    simp only [attemptsAfter] at h
    split at h
    · next job hjob =>
      rcases List.mem_cons.mp h with rfl | h
      · exact .inr ⟨cfg, limits, locked, job, rfl, hjob, rfl⟩
      · exact .inl ⟨h, nofun⟩
    · exact .inl ⟨h, nofun⟩
  | clearWorkerOwnership | die | finalizeJob | handleException =>
    obtain ⟨hb, hne⟩ := List.mem_filter.mp h
    refine .inl ⟨hb, fun a ha ↦ ?_⟩
    cases ha
    exact bne_iff_ne.mp hne
  | _ => exact .inl ⟨h, nofun⟩

/-- An attempt that ends was running. -/
theorem World.mem_attempts_of_ends {w : World} {e : Event} {s' : Store} {a : Attempt}
    (h : w.Commits e s') (ha : e.ends = some a) : a ∈ w.attempts := by
  cases h with
  | clearWorkerOwnership hm | die hm | finalizeJob hm | handleException hm => cases ha; exact hm
  | _ => cases ha

namespace Process

variable (cfg : MainLoopConfig) (p : Process)

/-- An attempt of this process. -/
def Own (a : Attempt) : Prop := a.cfg.workerUuid = cfg.workerUuid

instance (a : Attempt) : Decidable (Own cfg a) := inferInstanceAs (Decidable (_ = _))

/-- The job that the process acquires in a move. -/
def acquires : Move → Option JobId
  | .acquireJob limits locked =>
    (acquireJobLock cfg.toWorkerConfig limits locked p.world.now p.world.store).2
  | _ => none

/-- What the main loop and the pool do in a move. -/
def loopAction : Move → Option LoopAction
  | .tick elapsed => some (.tick elapsed)
  | .acquireJob limits locked =>
    some (.acquireJob (.ok (p.acquires cfg (.acquireJob limits locked))))
  | .updateHeartbeats => some (.updateHeartbeats (.ok ()))
  | .loop a => some a
  | .fire _ => none
  | .database e => (e.ends.filter fun a ↦ Own cfg a).map fun a ↦ .finish a.job

/-- The transaction that commits in a move. -/
def event : Move → Option Event
  | .tick elapsed => some (.tick elapsed)
  | .acquireJob limits locked => some (.acquireJobLock cfg.toWorkerConfig limits locked)
  | .updateHeartbeats => some (.updateHeartbeats cfg.workerUuid)
  | .loop _ | .fire _ => none
  | .database e => some e

/-- The moves that the code allows: an attempt beats until its timeout has fired and is
stamped behind it; `cli/worker.py:784–809`. -/
def allowed : Move → Bool
  | .tick _ | .acquireJob _ _ | .updateHeartbeats => true
  | .loop a => a.silent
  | .fire a => decide (a ∈ p.world.attempts) && !p.fired.contains a.id
  | .database e =>
    match e with
    | .tick _ => false
    | .acquireJobLock other _ _ => other.workerUuid != cfg.workerUuid
    | .updateHeartbeats worker => worker != cfg.workerUuid
    | .heartbeatJob a => !p.fired.contains a.id
    | .handleTimeout a _ => p.fired.contains a.id
    | _ => true

/-- The attempts that have fired behind a move. -/
def firedAfter : Move → List Nat
  | .fire a => a.id :: p.fired
  | _ => p.fired

/-- One move. -/
structure Step (m : Move) (p' : Process) : Prop where
  allowed : p.allowed cfg m = true
  loop : match p.loopAction cfg m with
    | some a => p.loop.next cfg a = some p'.loop
    | none => p'.loop = p.loop
  world : match event cfg m with
    | some e => p.world.Step e p'.world
    | none => p'.world = p.world
  fired : p'.fired = p.firedAfter m

/-- A worker starts when the database is empty. -/
def Starts : Prop :=
  p.loop.Starts ∧ p.world = World.init p.loop.now ∧ p.fired = []

/-- Runs of a process. -/
abbrev Run : List (Process × Move) → Process → Prop := Transition.Run Starts (Step cfg)

section Step

variable {cfg p} {p' : Process} {m : Move} {past : List (Process × Move)}

/-- The main loop does nothing or takes a step. -/
theorem Step.loop_cases (h : p.Step cfg m p') :
    p'.loop = p.loop ∧ p.loopAction cfg m = none ∨
      ∃ a, p.loopAction cfg m = some a ∧ p.loop.next cfg a = some p'.loop := by
  have hl := h.loop
  cases ha : p.loopAction cfg m with
  | none => rw [ha] at hl; exact .inl ⟨hl, rfl⟩
  | some a => rw [ha] at hl; exact .inr ⟨a, rfl, hl⟩

/-- The database does nothing or commits a transaction. -/
theorem Step.world_cases (h : p.Step cfg m p') :
    p'.world = p.world ∧ event cfg m = none ∨
      ∃ e s', event cfg m = some e ∧ p.world.Commits e s' ∧ p'.world = p.world.after e s' := by
  have hw := h.world
  cases he : event cfg m with
  | none => rw [he] at hw; exact .inl ⟨hw, rfl⟩
  | some e =>
    rw [he] at hw
    obtain ⟨s', hc, hs⟩ := hw
    exact .inr ⟨e, s', rfl, hc, hs⟩

/-- A task of the pool ends with one of the attempts of the process. -/
theorem Step.finish_cases {job : JobId} (h : p.Step cfg m p')
    (hf : p.loopAction cfg m = some (.finish job)) : ∃ e a, m = .database e ∧
      e.ends = some a ∧ a ∈ p.world.attempts ∧ Own cfg a ∧ a.job = job := by
  cases m with
  | loop b =>
    cases hf
    simpa [Process.allowed, LoopAction.silent] using h.allowed
  | database e =>
    obtain ⟨a, ha, heq⟩ := Option.map_eq_some_iff.mp hf
    obtain ⟨ha, ho⟩ := Option.filter_eq_some_iff.mp ha
    obtain ⟨_, he⟩ | ⟨e', s', he, hc, _⟩ := h.world_cases
    · cases he
    · cases he
      cases heq
      exact ⟨e, a, rfl, ha, mem_attempts_of_ends hc ha, of_decide_eq_true ho, rfl⟩
  | _ => simp [loopAction] at hf

/-- An attempt of the process behind a move was there before and has not ended, or the move
has acquired its job. -/
theorem Step.own_attempt (h : p.Step cfg m p') {b : Attempt} (hb : b ∈ p'.world.attempts)
    (ho : Own cfg b) :
    (b ∈ p.world.attempts ∧ ∀ e a, m = .database e → e.ends = some a → b.id ≠ a.id) ∨
      ∃ job, p.acquires cfg m = some job ∧
        b = ⟨p.world.nextAttempt, cfg.toWorkerConfig, job⟩ := by
  obtain ⟨hw, he⟩ | ⟨e, s', he, _, hw⟩ := h.world_cases
  · refine .inl ⟨hw ▸ hb, ?_⟩
    rintro e a rfl
    cases he
  · rw [hw] at hb
    rcases mem_attemptsAfter hb with ⟨hb, hends⟩ | ⟨c, limits, locked, job, rfl, hjob, rfl⟩
    · refine .inl ⟨hb, ?_⟩
      rintro e' a rfl ha
      cases he
      exact hends a ha
    · cases m with
      | acquireJob l k => cases he; exact .inr ⟨job, hjob, rfl⟩
      | database e' =>
        cases he
        have hne := h.allowed
        rw [Process.allowed, bne_iff_ne] at hne
        exact absurd ho hne
      | _ => cases he

/-- The main loop of a process is a run of a worker. -/
theorem loopRun (h : Run cfg past p) : ∃ past', LoopRun cfg past' p.loop := by
  induction h with
  | start h => exact ⟨[], .start h.1⟩
  | step _ hs ih =>
    obtain ⟨past', h⟩ := ih
    obtain ⟨hl, _⟩ | ⟨a, _, hl⟩ := hs.loop_cases
    · exact ⟨past', hl ▸ h⟩
    · exact ⟨_, h.step hl⟩

/-- The database of a process goes through a run of the system. -/
theorem trace (h : Run cfg past p) : ∃ past', Trace past' p.world := by
  induction h with
  | start h => exact ⟨[], h.2.1 ▸ .init _⟩
  | step _ hs ih =>
    obtain ⟨past', h⟩ := ih
    obtain ⟨hw, _⟩ | ⟨e, s', _, hc, hw⟩ := hs.world_cases
    · exact ⟨past', hw ▸ h⟩
    · exact ⟨_, h.step ⟨s', hc, hw⟩⟩

/-! ### Scripts -/

/-- A process that starts at time 0. -/
def launched : Process := ⟨World.init 0, (QueueWorker.create 0 false).run, []⟩

/-- A move, computed; a cancellation, which carries fuel, is left out. -/
def next (cfg : MainLoopConfig) (p : Process) (m : Move) : Option Process :=
  if p.allowed cfg m then
    (match p.loopAction cfg m with
      | some a => p.loop.next cfg a
      | none => some p.loop).bind fun loop ↦
    (match event cfg m with
      | some e => (p.world.execute e).map (p.world.after e)
      | none => some p.world).map fun world ↦ { world, loop, fired := p.firedAfter m }
  else none

/-- What is computed is a move. -/
theorem step_of_next (h : p.next cfg m = some p') : p.Step cfg m p' := by
  obtain ⟨ha, h⟩ := Option.ite_none_right_eq_some.mp h
  obtain ⟨loop, hl, h⟩ := Option.bind_eq_some_iff.mp h
  obtain ⟨world, hw, rfl⟩ := Option.map_eq_some_iff.mp h
  refine ⟨ha, ?_, ?_, rfl⟩
  · split
    · next a he => simpa only [he] using hl
    · next he => simpa only [he, Option.some.injEq, eq_comm] using hl
  · split
    · next e he =>
      simp only [he] at hw
      obtain ⟨s', hs, rfl⟩ := Option.map_eq_some_iff.mp hw
      exact ⟨s', commits_of_execute hs, rfl⟩
    · next he => simpa only [he, Option.some.injEq, eq_comm] using hw

/-- A script of a launched process is a run. -/
theorem run_of_replay {l : List Move} {past : List (Process × Move)}
    (h : Transition.replay (next cfg) launched l = some (past, p)) : Run cfg past p :=
  Run.of_replay step_of_next ⟨⟨0, false, rfl⟩, rfl, rfl⟩ h

end Step

end Process
end JobWorker
