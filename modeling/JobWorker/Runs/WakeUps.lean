import JobWorker.Base.WakeUps
import JobWorker.Runs.CompleteDrain

/-!
# The LISTEN session

A worker holds one LISTEN session and waits in `select` for a NOTIFY or its poll timeout
(`job_worker/cli/worker.py:320–381`). Callers notify when they enqueue or requeue a job, and
workers when they have finalized one. PostgreSQL delivers a NOTIFY with the commit of its
transaction to the sessions that listen then.
-/

namespace JobWorker

open Transition World QueueWorker

/-- The session is open: LISTEN is committed, and no error has left the session. -/
def Pc.inSession : Pc → Bool
  | listen | backOff | shutdown | ended => false
  | _ => true

/-- The main thread has stopped looking for jobs in this cycle. -/
def Pc.idles : Pc → Bool
  | activeCheck | slotWait | updateHeartbeats | select => true
  | _ => false

/-- It has not left its session. -/
theorem Pc.inSession_of_idles {pc : Pc} (h : pc.idles = true) : pc.inSession = true := by
  cases pc with
  | activeCheck | slotWait | updateHeartbeats | select => rfl
  | _ => cases h

/-- The transaction of the event notifies: `enqueue` when it has created a job,
`button_requeue` when it has requeued one, `finalize_job` always; `models/queue_job.py:718,1053`,
`cli/worker.py:1127`. -/
def Event.notifies (w : World) : Event → Bool
  | .enqueue env args =>
    (JobWorker.enqueue env w.now w.store args).toOption.any fun r ↦ (w.store.get? r.2).isNone
  | .buttonRequeue self => self.any fun job ↦ !w.store.identityKeyDuplicate job
  | .finalizeJob _ _ => true
  | _ => false

/-- How the main thread stops looking for jobs. -/
inductive StopsLooking (cfg : MainLoopConfig) (s : QueueWorker) : LoopAction → Prop
  | closed : StopsLooking cfg s (.gate (.ok false))
  | head : s.pc = .slotCheck → (s.processJobs cfg).pc = .updateHeartbeats →
      StopsLooking cfg s .read
  | nothing : StopsLooking cfg s (.acquireJob (.ok none))
  | timedOut : StopsLooking cfg s (.acquireJob (.error .transient))

/-- The main thread idles because it did, or because it stops looking. -/
theorem idles_next {cfg : MainLoopConfig} {s s' : QueueWorker} {a : LoopAction}
    (h : s.next cfg a = some s') (hi : s'.pc.idles = true) :
    (s.pc.idles = true ∧ (∀ r, a ≠ .listen r) ∧ ∀ r, a ≠ .select r) ∨
      StopsLooking cfg s a := by
  cases effect_of_next h with
  | tick | stop | finish => exact .inl ⟨hi, by simp, by simp⟩
  | leave hpc =>
    rcases hpc with hpc | hpc
    · simp only [QueueWorker.next, hpc, Option.some.injEq] at h
      exact .inr (.head hpc (by rw [h]; rfl))
    · exact .inl ⟨by rw [hpc]; rfl, by simp, by simp⟩
  | wait hpc | beaten hpc => exact .inl ⟨by rw [hpc]; rfl, by simp, by simp⟩
  | closed => exact .inr .closed
  | notAcquired _ hr =>
    rcases hr with rfl | rfl
    · exact .inr .nothing
    · exact .inr .timedOut
  | _ => cases hi

namespace Process

/-- A NOTIFY is committed in a move. -/
def Notifies (p : Process) : Move → Prop
  | .database e => e.notifies p.world = true
  | _ => False

instance (p : Process) : ∀ m, Decidable (p.Notifies m)
  | .database e => inferInstanceAs (Decidable (e.notifies p.world = true))
  | .tick _ | .acquireJob _ _ | .updateHeartbeats | .loop _ | .fire _ => isFalse id

/-- The notification reaches the session of the worker. -/
def Hears (p : Process) (m : Move) : Prop := p.loop.pc.inSession = true ∧ p.Notifies m

instance (p : Process) (m : Move) : Decidable (p.Hears m) := by
  unfold Hears; infer_instance

/-- A new session has no notifications yet, and `conn.poll()` behind the wait takes them all. -/
def Drains (_ : Process) : Move → Prop
  | .loop (.listen (.ok _)) | .loop (.select (.ok _)) => True
  | _ => False

instance (p : Process) (m : Move) : Decidable (p.Drains m) := by
  unfold Drains; split <;> infer_instance

/-- A notification is in the session, so that `select` returns at once. -/
abbrev Readable (past : List (Process × Move)) : Prop := WakeUpPending Hears Drains past

/-- Why a worker stops looking for jobs. -/
inductive Excuse (cfg : MainLoopConfig) (p : Process) : Move → Prop
  | closed : Excuse cfg p (.loop (.gate (.ok false)))
  | stopped : p.loop.pc = .slotCheck → p.loop.stop = true → Excuse cfg p (.loop .read)
  | full : p.loop.pc = .slotCheck → cfg.concurrency ≤ p.loop.activeJobIds.card →
      Excuse cfg p (.loop .read)
  | timedOut : Excuse cfg p (.loop (.acquireJob (.error .transient)))
  | nothing {limits : QueueLimits} {locked : JobId → Bool} :
      (∀ i ∈ cfg.candidates limits p.world.now p.world.store, locked i = true) →
      Excuse cfg p (.acquireJob limits locked)
  | exhausted {limits : QueueLimits} {locked : JobId → Bool} {job : JobId} {r : Job} :
      ReclaimExhausts cfg.toWorkerConfig limits locked p.world.now p.world.store job r →
      Excuse cfg p (.acquireJob limits locked)

section Step

variable {cfg : MainLoopConfig} {p p' : Process} {m : Move}
  {past : List (Process × Move)}

/-- An excuse does not notify. -/
theorem Excuse.not_notifies (h : Excuse cfg p m) : ¬ p.Notifies m := by
  cases h <;> exact id

/-- Nothing is acquired when every candidate is locked, or the first one that is not is out of
retries. -/
theorem excuse_of_acquireJobLock {limits : QueueLimits} {locked : JobId → Bool}
    (h : p.acquires cfg (.acquireJob limits locked) = none) :
    Excuse cfg p (.acquireJob limits locked) := by
  rw [acquires] at h
  cases hf : (cfg.candidates limits p.world.now p.world.store).find? fun i ↦ !locked i with
  | none =>
    apply Excuse.nothing
    intro i hi
    simpa using List.find?_eq_none.mp hf i hi
  | some job =>
    obtain ⟨r, hr, _⟩ := mem_candidates.mp (List.mem_of_find?_eq_some hf)
    rw [acquireJobLock_of_find hf hr, acquireRow] at h
    split at h
    · cases h
    · next hs =>
      split at h
      · next he => exact .exhausted ⟨hf, hr, not_not.mp hs, he⟩
      · cases h

/-- The main loop leaves `process_jobs` at its head for one of two reasons. -/
theorem excuse_of_processJobs (hpc : p.loop.pc = .slotCheck)
    (h : (p.loop.processJobs cfg).pc = .updateHeartbeats) : Excuse cfg p (.loop .read) := by
  rw [processJobs] at h
  split at h
  · next hleave =>
    rcases hleave with hstop | hfull
    · exact .stopped hpc hstop
    · exact .full hpc hfull
  · cases h

/-- Only the main thread itself is behind an action of its own. -/
theorem eq_loop_of_loopAction {a : LoopAction} (h : p.loopAction cfg m = some a)
    (htick : ∀ d, a ≠ .tick d) (hfinish : ∀ job, a ≠ .finish job)
    (hacquire : ∀ job, a ≠ .acquireJob (.ok job)) (hbeat : ∀ r, a ≠ .updateHeartbeats r) :
    m = .loop a := by
  cases m with
  | tick d => cases h; exact absurd rfl (htick d)
  | acquireJob limits locked => cases h; exact absurd rfl (hacquire _)
  | updateHeartbeats => cases h; exact absurd rfl (hbeat _)
  | loop b => cases h; rfl
  | fire b => cases h
  | database e =>
    obtain ⟨b, _, rfl⟩ := Option.map_eq_some_iff.mp h
    exact absurd rfl (hfinish b.job)

/-- What leads to a state that owes an excuse is one, or goes on from such a state without
draining the session. -/
theorem Step.idles (h : p.Step cfg m p') (hi : p'.loop.pc.idles = true) :
    Excuse cfg p m ∨ p.loop.pc.idles = true ∧ ¬ p.Drains m := by
  obtain ⟨hl, ha⟩ | ⟨a, ha, hl⟩ := h.loop_cases
  · rw [hl] at hi
    refine .inr ⟨hi, fun hd ↦ ?_⟩
    cases m with
    | loop b => cases ha
    | _ => exact hd
  rcases idles_next hl hi with ⟨hi, hlisten, hselect⟩ | hleft
  · refine .inr ⟨hi, fun hd ↦ ?_⟩
    cases m with
    | loop b =>
      cases ha
      cases a with
      | listen r => exact hlisten r rfl
      | select r => exact hselect r rfl
      | _ => exact hd
    | _ => exact hd
  · left
    cases hleft with
    | closed =>
      obtain rfl := eq_loop_of_loopAction ha (by simp) (by simp) (by simp) (by simp)
      exact .closed
    | head hpc hhead =>
      obtain rfl := eq_loop_of_loopAction ha (by simp) (by simp) (by simp) (by simp)
      exact excuse_of_processJobs hpc hhead
    | timedOut =>
      obtain rfl := eq_loop_of_loopAction ha (by simp) (by simp) (by simp) (by simp)
      exact .timedOut
    | nothing =>
      cases m with
      | acquireJob limits locked =>
        apply excuse_of_acquireJobLock
        injection ha with ha
        injection ha with ha
        injection ha
      | loop b =>
        cases ha
        simpa [Process.allowed, LoopAction.silent] using h.allowed
      | database e =>
        obtain ⟨b, _, hb⟩ := Option.map_eq_some_iff.mp ha
        cases hb
      | tick | updateHeartbeats | fire => cases ha

end Step

/-- **A worker never sleeps through a NOTIFY**: when its main thread waits in `select` and no
notification is in its session, then it has stopped looking for jobs for a reason that is newer
than every NOTIFY: the gate was closed, the worker is to stop, its pool was full, the database
was too slow, or the acquire query found no row that it could lock, or one out of retries. -/
theorem excuse_of_asleep {cfg : MainLoopConfig} {past : List (Process × Move)} {p : Process}
    (h : Run cfg past p) (hpc : p.loop.pc = .select) (hasleep : ¬ Readable past) :
    ∃ later q m earlier, past = later ++ (q, m) :: earlier ∧ Excuse cfg q m ∧
      ∀ x ∈ later, ¬ x.1.Notifies x.2 := by
  have hrun := h.wakeUpPending_or_excused Notifies Hears Drains (Excuse cfg)
    (fun p ↦ p.loop.pc.idles = true) (fun p hp ↦ ?_)
    (fun p m hi hm ↦ ⟨Pc.inSession_of_idles hi, hm⟩) (fun p m p' hs hi ↦ ?_)
    (by rw [hpc]; rfl)
  · obtain ⟨later, q, m, earlier, heq, he, _, hlater⟩ :=
      excused_iff.mp (hrun.resolve_left hasleep)
    exact ⟨later, q, m, earlier, heq, he, hlater⟩
  · obtain ⟨⟨now, stop, hloop⟩, _⟩ := hp
    rw [hloop, QueueWorker.run]
    split <;> simp [QueueWorker.poolShutdown, QueueWorker.goto, Pc.idles]
  · rcases hs.idles hi with he | hgoes
    · exact .inl ⟨he, he.not_notifies⟩
    · exact .inr hgoes

/-- A NOTIFY while the gate is closed, a wait that it ends, and a cycle that finds the gate
closed again. -/
def announcement : List Move :=
  [.loop (.listen (.ok ())), .loop (.gate (.ok false)),
    .database (.enqueue {} { modelName := "res.partner", methodName := "ping" }),
    .updateHeartbeats, .loop (.select (.ok ())), .loop (.gate (.ok false)), .updateHeartbeats]

/-- The announced job is left alone, and the worker asleep, since the gate is closed. -/
theorem excuse_of_asleep_announcement : ∃ past p, Run { workerUuid := 1 } past p ∧
    (∃ x ∈ past, x.1.Notifies x.2) ∧ ∃ later q m earlier, past = later ++ (q, m) :: earlier ∧
      Excuse { workerUuid := 1 } q m ∧ ∀ x ∈ later, ¬ x.1.Notifies x.2 := by
  have hrun : (Transition.replay (next { workerUuid := 1 }) launched announcement).map (fun r ↦
      (r.2.loop.pc, decide (Readable r.1), r.1.any fun x ↦ decide (x.1.Notifies x.2))) =
      some (.select, false, true) := by
    decide +kernel
  obtain ⟨⟨past, p⟩, hreplay, heq⟩ := Option.map_eq_some_iff.mp hrun
  simp only [Prod.mk.injEq, decide_eq_false_iff_not, List.any_eq_true, decide_eq_true_eq] at heq
  have h := run_of_replay hreplay
  exact ⟨past, p, h, heq.2.2, excuse_of_asleep h heq.1 heq.2.1⟩

end Process
end JobWorker
