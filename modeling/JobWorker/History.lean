import JobWorker.Base.Runs
import JobWorker.System

/-!
# Runs and their history

A run keeps the worlds that it went through and their events, so that a property of a run
can speak about acquisitions or failures in its past. A script is a run that computes.
-/

namespace JobWorker

deriving instance DecidableEq for WorkerConfig, Attempt

namespace World

/-- A run from the empty database, with the worlds that it went through and their events,
the newest first. -/
inductive Trace : List (World × Event) → World → Prop
  | init (now : Time) : Trace [] (World.init now)
  | step {past : List (World × Event)} {w w' : World} {e : Event} :
      Trace past w → w.Step e w' → Trace ((w, e) :: past) w'

/-- Every step of a run meets `P`, which may look at the past of the step. -/
def Each (P : List (World × Event) → World → Event → Prop) : List (World × Event) → Prop
  | [] => True
  | (w, e) :: past => P past w e ∧ Each P past

instance decidableEach {P : List (World × Event) → World → Event → Prop}
    [∀ past w e, Decidable (P past w e)] : ∀ past, Decidable (Each P past)
  | [] => isTrue trivial
  | (w, e) :: past =>
    have := decidableEach (P := P) past
    inferInstanceAs (Decidable (P past w e ∧ Each P past))

/-- A weaker condition on every step. -/
theorem Each.mono {P Q : List (World × Event) → World → Event → Prop}
    {past : List (World × Event)} (h : Each P past) (hPQ : ∀ past w e, P past w e → Q past w e) :
    Each Q past := by
  induction past with
  | nil => exact trivial
  | cons p past ih => exact ⟨hPQ _ _ _ h.1, ih h.2⟩

/-- Two conditions on every step. -/
theorem Each.and {P Q : List (World × Event) → World → Event → Prop}
    {past : List (World × Event)} (h : Each P past) (h' : Each Q past) :
    Each (fun past w e ↦ P past w e ∧ Q past w e) past := by
  induction past with
  | nil => exact trivial
  | cons p past ih => exact ⟨⟨h.1, h'.1⟩, ih h.2 h'.2⟩

/-- An invariant that every step under `guard` keeps holds at the end of every run of such
steps. -/
theorem Trace.invariant {guard : List (World × Event) → World → Event → Prop}
    {past : List (World × Event)} {w : World} {P : List (World × Event) → World → Prop}
    (h : Trace past w) (hg : Each guard past) (hinit : ∀ now, P [] (World.init now))
    (hstep : ∀ past w e s', P past w → guard past w e → w.Commits e s' →
      P ((w, e) :: past) (w.after e s')) : P past w := by
  induction h with
  | init now => exact hinit now
  | @step past w w' e _ hs ih =>
    obtain ⟨s', hc, rfl⟩ := hs
    exact hstep past w e s' (ih hg.2) hg.1 hc

/-- The end of a run is reachable. -/
theorem Trace.reachable {past : List (World × Event)} {w : World} (h : Trace past w) :
    Reachable (fun _ _ ↦ True) w := by
  induction h with
  | init now => exact .init now
  | step _ hs ih => exact ih.step trivial hs

/-! ### Scripts -/

/-- The table behind an event, computed; a cancellation, which carries fuel, is left out. -/
def execute (w : World) : Event → Option Store
  | .tick _ => some w.store
  | .enqueue env args => (JobWorker.enqueue env w.now w.store args).toOption.map Prod.fst
  | .acquireJobLock cfg limits locked =>
    some (JobWorker.acquireJobLock cfg limits locked w.now w.store).1
  | .heartbeatJob a =>
    if a ∈ w.attempts then
      some (JobWorker.heartbeatJob a.cfg.workerUuid w.now w.store a.job)
    else none
  | .updateHeartbeats worker =>
    some (JobWorker.updateHeartbeats worker w.now w.store (w.activeJobIds worker))
  | .handleTimeout a timeout =>
    if a ∈ w.attempts ∧ timeoutRaises a.cfg w.store a.job = false then
      some (JobWorker.handleTimeout a.cfg timeout w.now w.store a.job)
    else none
  | .clearWorkerOwnership a =>
    if a ∈ w.attempts then
      some (JobWorker.clearWorkerOwnership a.cfg.workerUuid w.store a.job)
    else none
  | .die a => if a ∈ w.attempts then some w.store else none
  | .finalizeJob a serialized =>
    if a ∈ w.attempts then (JobWorker.finalizeJob w.now serialized w.store a.job).toOption
    else none
  | .handleException a exc traceback =>
    if a ∈ w.attempts then
      (JobWorker.handleException a.cfg w.now exc traceback w.store a.job).toOption
    else none
  | .runNow job run =>
    if (w.store.get? job).isSome then (runJob run w.store job).toOption.map Prod.fst else none
  | .buttonSetToDone self =>
    if ∀ j ∈ self, (w.store.get? j).isSome then
      (JobWorker.buttonSetToDone w.now w.store self).toOption
    else none
  | .buttonSetToFailed self =>
    if ∀ j ∈ self, (w.store.get? j).isSome then
      (JobWorker.buttonSetToFailed w.now w.store self).toOption
    else none
  | .buttonRequeue self =>
    if ∀ j ∈ self, (w.store.get? j).isSome then
      (JobWorker.buttonRequeue w.now w.store self).toOption
    else none
  | .buttonCancelled _ => none

/-- The run of the events `es`, if each of them can happen in its turn. -/
def script (past : List (World × Event)) (w : World) :
    List Event → Option (List (World × Event) × World)
  | [] => some (past, w)
  | e :: es => (w.execute e).bind fun s' ↦ script ((w, e) :: past) (w.after e s') es

section Script

variable {w w' : World} {e : Event} {s' : Store} {past past' : List (World × Event)}
  {es : List Event}

private theorem toOption_eq_some {α : Type} {x : Except OrmError α} {a : α}
    (h : x.toOption = some a) : x = .ok a := by
  cases x with
  | error => cases h
  | ok b => cases h; rfl

/-- What is executed is committed. -/
theorem commits_of_execute (h : w.execute e = some s') : w.Commits e s' := by
  have hexist {self : List JobId} (h : ∀ j ∈ self, (w.store.get? j).isSome = true) :
      w.Exist self := fun j hj ↦ Option.isSome_iff_exists.mp (h j hj)
  cases e with
  | tick | acquireJobLock | updateHeartbeats =>
    cases h
    constructor
  | enqueue =>
    obtain ⟨⟨s₁, j⟩, hout, rfl⟩ := Option.map_eq_some_iff.mp h
    exact .enqueue (toOption_eq_some hout)
  | heartbeatJob | clearWorkerOwnership | die =>
    obtain ⟨ha, h⟩ := Option.ite_none_right_eq_some.mp h
    cases h
    constructor
    exact ha
  | handleTimeout =>
    obtain ⟨⟨ha, hn⟩, h⟩ := Option.ite_none_right_eq_some.mp h
    cases h
    exact .handleTimeout ha hn
  | finalizeJob =>
    obtain ⟨ha, h⟩ := Option.ite_none_right_eq_some.mp h
    exact .finalizeJob ha (toOption_eq_some h)
  | handleException =>
    obtain ⟨ha, h⟩ := Option.ite_none_right_eq_some.mp h
    exact .handleException ha (toOption_eq_some h)
  | runNow =>
    obtain ⟨hi, h⟩ := Option.ite_none_right_eq_some.mp h
    obtain ⟨⟨s₁, raised⟩, hout, rfl⟩ := Option.map_eq_some_iff.mp h
    refine .runNow (hexist ?_) (toOption_eq_some hout)
    rintro j hj
    rwa [List.mem_singleton.mp hj]
  | buttonSetToDone =>
    obtain ⟨hi, h⟩ := Option.ite_none_right_eq_some.mp h
    exact .buttonSetToDone (hexist hi) (toOption_eq_some h)
  | buttonSetToFailed =>
    obtain ⟨hi, h⟩ := Option.ite_none_right_eq_some.mp h
    exact .buttonSetToFailed (hexist hi) (toOption_eq_some h)
  | buttonRequeue =>
    obtain ⟨hi, h⟩ := Option.ite_none_right_eq_some.mp h
    exact .buttonRequeue (hexist hi) (toOption_eq_some h)
  | buttonCancelled => cases h

/-- A script is a run. -/
theorem trace_of_script (h : Trace past w) (hs : script past w es = some (past', w')) :
    Trace past' w' := by
  induction es generalizing past w with
  | nil => cases hs; exact h
  | cons e es ih =>
    obtain ⟨s', he, hs⟩ := Option.bind_eq_some_iff.mp hs
    exact ih (.step h ⟨s', commits_of_execute he, rfl⟩) hs

/-- The events of a script are those of its run. -/
theorem each_of_script {P : List (World × Event) → World → Event → Prop} (h : Each P past)
    (hs : script past w es = some (past', w')) (hP : ∀ e ∈ es, ∀ past w, P past w e) :
    Each P past' := by
  induction es generalizing past w with
  | nil => cases hs; exact h
  | cons e es ih =>
    obtain ⟨s', he, hs⟩ := Option.bind_eq_some_iff.mp hs
    have hfirst : Each P ((w, e) :: past) := ⟨hP e List.mem_cons_self past w, h⟩
    exact ih hfirst hs fun e he ↦ hP e (List.mem_cons_of_mem _ he)

/-- The world behind an event, computed. -/
def next (w : World) (e : Event) : Option World := (w.execute e).map (w.after e)

/-- A computed event is a step. -/
theorem step_of_next (h : w.next e = some w') : w.Step e w' := by
  obtain ⟨s', he, rfl⟩ := Option.map_eq_some_iff.mp h
  exact ⟨s', commits_of_execute he, rfl⟩

end Script

end World
end JobWorker
