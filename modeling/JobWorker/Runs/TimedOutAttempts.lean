import JobWorker.ExecuteJob
import JobWorker.Runs.LostClaims
import JobWorker.Runs.WorkerRuns

/-!
# The return of a timed-out attempt

A timed-out attempt keeps its row `started` until its thread returns, and the thread is to release
the claim then, whether it returned or raised (`job_worker/cli/worker.py:812–858`). The event can
be set at any point of `execute_job`, which looks at it three times (`cli/worker.py:1064–1099,
1133–1157`): behind the commit of the side effects it returns without releasing anything.
-/

namespace JobWorker

open Transition World

namespace ExecuteJob

/-- The thread leaves `execute_job` here without a transaction on the row: at the check behind
the commit, or by an exception that nothing catches. -/
def leavesClaim : ExecutePoint → ExecuteStep → Bool
  | .checkCommit _, .succeeds => true
  | .except _ _, .raises _ _ | .release, .raises _ _ | .handle _ _, .raises _ _ => true
  | _, .exits => true
  | _, _ => false

/-- While the event is set and the row held, the thread does not leave so. -/
def Settles (a : Attempt) (p : ExecuteJob) : ExecuteMove → Prop
  | .execute step => p.timeoutEvent = true → Holds p.world.store a →
    leavesClaim p.point step = false
  | _ => True

instance (a : Attempt) (p : ExecuteJob) : ∀ m, Decidable (Settles a p m)
  | .execute _ => inferInstanceAs (Decidable (_ → _ → _))
  | .setTimeout | .database _ => isTrue trivial

section Release

variable {a : Attempt} {p p' : ExecuteJob} {m : ExecuteMove} {r : Job} {timedOut b : Bool}
  {point point' : ExecutePoint} {step : ExecuteStep} {e : Event}
  {past : List (ExecuteJob × ExecuteMove)}

end Release

/-! ### Two overruns -/

/-- The first attempt of worker 0. -/
def attemptOne : Attempt := ⟨1, { workerUuid := 0 }, 1⟩

/-- The attempt overruns its timeout, which its heartbeat loop stamps on the row. -/
def overruns : List ExecuteMove := [
  .database (.tick 60000000), .setTimeout, .database (.handleTimeout attemptOne 60)]

end ExecuteJob
end JobWorker
