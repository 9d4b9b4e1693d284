import JobWorker.Process

/-!
# The execution of an attempt

The thread of one attempt in `execute_job`, from the call of the job method to the end
(`job_worker/cli/worker.py:1012–1173`), among the transactions of everyone else. Its heartbeat
loop sets the timeout event whenever the attempt has overrun (`cli/worker.py:784–809`). Every
operation may raise, and an exception that is no `Exception` passes the except branch.
-/

namespace JobWorker

open Transition World

/-- Where the thread stands; `serialized` is the result of the method. -/
inductive ExecutePoint
  | method
  | checkReturn (serialized : Option String)
  | discard
  | commit (serialized : Option String)
  | checkCommit (serialized : Option String)
  | finalize (serialized : Option String)
  | except (exc : JobException) (traceback : String)
  | release
  | handle (exc : JobException) (traceback : String)
  | ended (timedOut : Bool)
  deriving DecidableEq

/-- How the operation at a point comes out. -/
inductive ExecuteStep
  | returns (serialized : Option String)
  | succeeds
  | raises (exc : JobException) (traceback : String)
  | exits
  deriving DecidableEq

/-- The next point, with the transaction that commits on the way. An end without one leaves the
row as it is. -/
def ExecutePoint.next (a : Attempt) (timedOut : Bool) :
    ExecutePoint → ExecuteStep → Option (ExecutePoint × Option Event)
  | .method, .returns serialized => some (.checkReturn serialized, none)
  | .method, .raises exc traceback => some (.except exc traceback, none)
  -- `if timeout_event and timeout_event.is_set()`, line 1065
  | .checkReturn serialized, .succeeds =>
    some (if timedOut then .discard else .commit serialized, none)
  | .discard, .succeeds => some (.ended timedOut, some (.clearWorkerOwnership a))
  | .discard, .raises exc traceback => some (.except exc traceback, none)
  | .commit serialized, .succeeds => some (.checkCommit serialized, none)
  | .commit _, .raises exc traceback => some (.except exc traceback, none)
  -- the check behind the join, line 1097: it returns
  | .checkCommit serialized, .succeeds =>
    if timedOut then some (.ended timedOut, some (.die a)) else some (.finalize serialized, none)
  | .finalize serialized, .succeeds => some (.ended timedOut, some (.finalizeJob a serialized))
  | .finalize _, .raises exc traceback => some (.except exc traceback, none)
  -- the rollback of the except branch and its check, line 1150
  | .except exc traceback, .succeeds =>
    some (if timedOut then .release else .handle exc traceback, none)
  | .release, .succeeds => some (.ended timedOut, some (.clearWorkerOwnership a))
  | .handle exc traceback, .succeeds =>
    some (.ended timedOut, some (.handleException a exc traceback))
  -- what the except branch raises leaves `execute_job`
  | .except _ _, .raises _ _ | .release, .raises _ _ | .handle _ _, .raises _ _ =>
    some (.ended timedOut, some (.die a))
  | .method, .exits | .discard, .exits | .commit _, .exits | .finalize _, .exits
  | .except _ _, .exits | .release, .exits | .handle _ _, .exits =>
    some (.ended timedOut, some (.die a))
  | _, _ => none

/-- The database, the thread of one attempt and its timeout event. -/
structure ExecuteJob where
  world : World
  point : ExecutePoint := .method
  timeoutEvent : Bool := false

/-- The moves of the thread, of its heartbeat loop, and of the database. -/
inductive ExecuteMove
  | execute (step : ExecuteStep)
  | setTimeout
  | database (e : Event)

namespace ExecuteJob

variable (a : Attempt) (p : ExecuteJob)

/-- The timeout of the job is set. -/
def hasTimeout : Bool := (p.world.store.get? a.job).any fun r ↦ r.timeout != 0

/-- The transactions of others, and of the heartbeat loop: it beats until it sets the event, and
stamps the row behind that. -/
def lets : Event → Bool
  | .heartbeatJob b => b != a || !p.timeoutEvent
  | .handleTimeout b _ => b != a || p.timeoutEvent
  | e => e.ends != some a

/-- One move. -/
inductive Step : ExecuteMove → ExecuteJob → Prop
  | thread {step : ExecuteStep} {point : ExecutePoint} :
      p.point.next a p.timeoutEvent step = some (point, none) →
      Step (.execute step) { p with point }
  | commits {step : ExecuteStep} {point : ExecutePoint} {e : Event} {world : World} :
      p.point.next a p.timeoutEvent step = some (point, some e) → p.world.Step e world →
      Step (.execute step) { p with point, world }
  | setTimeout : p.hasTimeout a = true → Step .setTimeout { p with timeoutEvent := true }
  | database {e : Event} {world : World} : p.lets a e = true → p.world.Step e world →
      Step (.database e) { p with world }

/-- The thread enters the method of an acquired job, at any time. -/
def Starts : Prop :=
  Reachable (fun _ _ ↦ True) p.world ∧ a ∈ p.world.attempts ∧ p.point = .method ∧
    p.timeoutEvent = false

/-- Runs of the thread and its surroundings. -/
abbrev Run : List (ExecuteJob × ExecuteMove) → ExecuteJob → Prop :=
  Transition.Run (Starts a) (Step a)

section Next

variable {a p} {p' : ExecuteJob} {m : ExecuteMove}

/-- A move, computed; a cancellation, which carries fuel, is left out. -/
def next (a : Attempt) (p : ExecuteJob) : ExecuteMove → Option ExecuteJob
  | .execute step =>
    match p.point.next a p.timeoutEvent step with
    | none => none
    | some (point, none) => some { p with point }
    | some (point, some e) =>
      (p.world.execute e).map fun s ↦ { p with point, world := p.world.after e s }
  | .setTimeout => if p.hasTimeout a then some { p with timeoutEvent := true } else none
  | .database e =>
    if p.lets a e then (p.world.execute e).map fun s ↦ { p with world := p.world.after e s }
    else none

/-- What is computed is a move. -/
theorem step_of_next (h : p.next a m = some p') : p.Step a m p' := by
  cases m with
  | execute step =>
    rw [next] at h
    split at h
    · cases h
    · next hn =>
      cases h
      exact .thread hn
    · next hn =>
      obtain ⟨s, hs, rfl⟩ := Option.map_eq_some_iff.mp h
      exact .commits hn ⟨s, commits_of_execute hs, rfl⟩
  | setTimeout =>
    obtain ⟨ht, h⟩ := Option.ite_none_right_eq_some.mp h
    cases h
    exact .setTimeout ht
  | database e =>
    obtain ⟨hl, h⟩ := Option.ite_none_right_eq_some.mp h
    obtain ⟨s, hs, rfl⟩ := Option.map_eq_some_iff.mp h
    exact .database hl ⟨s, commits_of_execute hs, rfl⟩

/-- The database goes through runs of the system. -/
theorem reachable {past : List (ExecuteJob × ExecuteMove)} (h : Run a past p) :
    Reachable (fun _ _ ↦ True) p.world := by
  refine h.always (P := fun p ↦ Reachable (fun _ _ ↦ True) p.world) (fun _ hs ↦ hs.1) ?_
  intro p m p' hp hs
  cases hs with
  | thread | setTimeout => exact hp
  | commits _ hw | database _ hw => exact hp.step trivial hw

end Next

end ExecuteJob
end JobWorker
