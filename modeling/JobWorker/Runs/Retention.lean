import JobWorker.History
import JobWorker.Models.GarbageCollection
import JobWorker.RowEffects

/-!
# How long jobs are kept

A pass of `_gc_old_jobs` reads the clock and the retention once and then deletes chunk by chunk,
each chunk in a transaction of its own (`job_worker/models/queue_job.py:1056–1090`), between the
transactions of workers and users. Nothing else deletes a job.
-/

namespace JobWorker

open Relational Transition

/-- The system, and the cutoff of the pass in progress. -/
structure Autovacuum where
  world : World
  cutoff : Option Time := none

/-- An event of the system, the start of a pass with the value of
`job_worker.done_job_retention_days`, a chunk of it, and its end by an exception. -/
inductive VacuumAction
  | event (e : Event)
  | start (retentionDays : Int)
  | chunk
  | abort

namespace Autovacuum

/-- The pass behind a chunk of `count` jobs; `models/queue_job.py:1080–1090`. -/
def cutoffBehind (cutoff : Time) (count : Nat) : Option Time :=
  if count < 1000 then none else some cutoff

/-- One action; `models/queue_job.py:1064–1090`. -/
inductive Step (v : Autovacuum) : VacuumAction → Autovacuum → Prop
  | event {e : Event} {w : World} : v.world.Step e w →
      Step v (.event e) { v with world := w }
  | start {retentionDays : Int} : v.cutoff = none →
      Step v (.start retentionDays)
        { v with cutoff := some (datetimeNow v.world.now - retentionDays * day) }
  | chunk {cutoff : Time} : v.cutoff = some cutoff →
      Step v .chunk {
        world := { v.world with store := v.world.store.unlink (v.world.store.oldJobs cutoff) }
        cutoff := cutoffBehind cutoff (v.world.store.oldJobs cutoff).length }
  | abort : Step v .abort { v with cutoff := none }

end Autovacuum

/-- A row with the lasting columns of `r`, at most without its parent. -/
def Job.KeptAs (r r' : Job) : Prop :=
  r'.terms = r.terms ∨ r'.terms = ({ r with parentId := none } : Job).terms

section Kept

variable {r r' r'' : Job}

/-- Rows with the same lasting columns lose their parents alike. -/
theorem Job.terms_orphan (h : r'.terms = r.terms) :
    ({ r' with parentId := none } : Job).terms = ({ r with parentId := none } : Job).terms := by
  simp only [terms, wiring, Terms.mk.injEq, Wiring.mk.injEq, true_and] at h ⊢
  obtain ⟨h₁, h₂, h₃, h₄, h₅, h₆, ⟨_, hwiring⟩, hrest⟩ := h
  exact ⟨h₁, h₂, h₃, h₄, h₅, h₆, hwiring, hrest⟩

/-- What a deletion leaves. -/
theorem Job.KeptAs.orphanRow (h : r.KeptAs r') (ids : List JobId) :
    r.KeptAs (Store.orphanRow ids r') := by
  unfold Store.orphanRow
  split
  · right
    rcases h with h | h
    · exact Job.terms_orphan h
    · exact Job.terms_orphan (r := { r with parentId := none }) h
  · exact h

end Kept

namespace Autovacuum

variable {days : Int} {v v' v₀ : Autovacuum} {a : VacuumAction} {i : JobId} {r : Job}
  {mid : List (Autovacuum × VacuumAction)}

/-- A job is done. -/
def finished : World :=
  ((World.script [] (.init 0) [
    .enqueue {} { modelName := "res.partner", methodName := "ping" },
    .acquireJobLock { workerUuid := 0 } (fun _ ↦ none) fun _ ↦ false,
    .finalizeJob ⟨1, { workerUuid := 0 }, 1⟩ none]).getD ([], .init 0)).2

end Autovacuum
end JobWorker
