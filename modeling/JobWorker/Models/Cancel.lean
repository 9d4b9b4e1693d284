import JobWorker.Base.Fuel
import JobWorker.Models.QueueJob

/-!
# Cancellation

`_cancel_dependents`, `_cascade_children_on_parent_cancelled` and `button_cancelled`,
`job_worker/models/queue_job.py:616–688,805–843`. The first two call each other without a
visited set, so they carry fuel here; `JobWorker.Cascades.Cancellation` shows that it
never runs out.
-/

namespace JobWorker

open Relational

/-- Values written on a cancelled job; `models/queue_job.py:683,839`. -/
def cancelledRow (now : Time) (r : Job) : Job :=
  { r with state := .cancelled, cancelledAt := some (datetimeNow now), writeDate := now }

/-- The row the statement of `_cancel_dependents` leaves; `models/queue_job.py:634–637`. -/
def cancelledByStatementRow (now : Time) (r : Job) : Job :=
  { r with state := .cancelled, cancelledAt := some now, writeDate := now }

namespace Store

/-- `UPDATE … WHERE state = 'waiting' AND dependency_job_ids @> [job]`. -/
def cancelStatement (now : Time) (s : Store) (job : JobId) : Store :=
  s.update (fun _ ↦ isWaitingDependent job) (fun _ ↦ cancelledByStatementRow now) <|
    keeps_of_waiting (fun _ _ h ↦ isWaiting_of_dependent job _ h) fun _ _ ↦ rfl

/-- The rows that the statement returns. -/
def cancelReturning (s : Store) (job : JobId) : List JobId :=
  s.jobs.select fun _ ↦ isWaitingDependent job

/-- `for job in self: UPDATE … RETURNING id`; `models/queue_job.py:630–646`. -/
def cancelStatements (now : Time) (s : Store) : List JobId → Store × List JobId
  | [] => (s, [])
  | job :: self =>
    let rest := (s.cancelStatement now job).cancelStatements now self
    (rest.1, s.cancelReturning job ++ rest.2)

/-- `job.child_ids.filtered(lambda c: c.state == "waiting")`. -/
def waitingChildren (s : Store) (job : JobId) : List JobId :=
  s.jobs.selectBy (fun _ ↦ isWaitingChild job) RowOrder

/-- `job.write({"state": "cancelled", "cancelled_at": now})` on a job of the queue, which
is waiting or has been cancelled on the way; `models/queue_job.py:683`. -/
def cancelQueued (now : Time) (s : Store) (job : JobId) : Store :=
  s.update (fun i _ ↦ i == job) (fun _ ↦ cancelledRow now) fun _ _ _ _ ↦
    ⟨rfl, fun h ↦ by cases h⟩

end Store

mutual

/-- `_cancel_dependents`; `models/queue_job.py:616–661`. -/
def cancelDependents (now : Time) : Nat → Store → List JobId → Option Store
  | 0, _, _ => none
  | fuel + 1, s, self =>
    let (s, cancelledIds) := s.cancelStatements now self
    if cancelledIds = [] then some s
    else do
      let s ← cancelledIds.foldlM (fun s job ↦
        cascadeChildrenOnParentCancelled now fuel s job) s
      cancelDependents now fuel s cancelledIds

/-- `_cascade_children_on_parent_cancelled`; `models/queue_job.py:663–688`. -/
def cascadeChildrenOnParentCancelled (now : Time) : Nat → Store → JobId → Option Store
  | 0, _, _ => none
  | fuel + 1, s, self => cancelQueue now fuel s (s.waitingChildren self)

/-- The loop over its queue; `models/queue_job.py:681–688`. -/
def cancelQueue (now : Time) : Nat → Store → List JobId → Option Store
  | 0, _, _ => none
  | _ + 1, s, [] => some s
  | fuel + 1, s, job :: queue => do
    let s := s.cancelQueued now job
    let queue := queue ++ s.waitingChildren job
    let s ← cancelDependents now fuel s [job]
    cancelQueue now fuel s queue

end

/-- `button_cancelled`: jobs that were already terminal are cancelled without a cascade;
`models/queue_job.py:805–843`. -/
def buttonCancelled (now : Time) (fuel : Nat) (s : Store) (self : List JobId) :
    Option (Except OrmError Store) :=
  let cascading := self.filter fun job ↦ (s.get? job).any fun r ↦ !r.state.isTerminal
  match s.writeEach (cancelledRow now) (fun _ ↦ rfl) self with
  | .error e => some (.error e)
  | .ok s => do
    let s ← cascading.foldlM (fun s job ↦ cascadeChildrenOnParentCancelled now fuel s job) s
    let s ← cancelDependents now fuel s cascading
    return .ok s

end JobWorker
