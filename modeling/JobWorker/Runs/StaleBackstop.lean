import JobWorker.Runs.ChannelLimits
import JobWorker.Runs.PoolAccounting
import Mathlib.Tactic.Linarith

/-!
# Timeouts and the stale window

A heartbeat loop that has fired the timeout leaves the row started and beats no more, so that
a thread that never returns loses the job to stale reclaim
(`job_worker/cli/worker.py:784–911`, `docs/reference.md:156–173`). The batch heartbeat of the
main loop still names the job while its thread is blocked
(`job_worker/cli/worker.py:425–448`).
-/

namespace JobWorker

open Transition World QueueWorker

namespace World

section Heartbeat

variable {w : World} {e : Event} {s' : Store} {i : JobId} {r r' : Job} {worker : WorkerUuid}

/-- A started row behind an event carries the heartbeat of this moment, none, or the one it
was started with before. -/
theorem RowEffect.heartbeat (h : RowEffect w e i r r') (hs : r'.state = .started) :
    r'.heartbeat = some w.now ∨ r'.heartbeat = none ∨
      r.state = .started ∧ r'.heartbeat = r.heartbeat := by
  cases h with
  | cascaded hc =>
    cases hc with
    | kept => exact .inr (.inr ⟨hs, rfl⟩)
    | written _ _ _ _ hn => exact absurd hs hn
  | called _ hw => exact absurd hs hw.notStarted
  | acquired =>
    left
    unfold WorkerConfig.acquiredRow
    split <;> rfl
  | heartbeatJob | updateHeartbeats => exact .inl rfl
  | handleTimeout => exact .inr (.inr ⟨hs, rfl⟩)
  | clearWorkerOwnership => exact .inr (.inl rfl)
  | workerDied | finalizeJob => cases hs
  | @handleException a exc =>
    revert hs
    cases dispositionOf a.cfg w.now exc r <;> exact fun hs ↦ by cases hs

/-- No heartbeat lies ahead of the clock. -/
theorem Reachable.heartbeat_le {guard : World → Event → Prop} (h : Reachable guard w)
    (hr : w.store.get? i = some r) (hs : r.state = .started) {t : Time}
    (ht : r.heartbeat = some t) : t ≤ w.now := by
  refine h.invariant (P := fun w ↦ ∀ i r t, w.store.get? i = some r → r.state = .started →
    r.heartbeat = some t → t ≤ w.now) (fun now i r t hr ↦ ?_)
    (fun w e s' ih _ hc i r' t hr' hs' ht ↦ ?_) i r t hr hs ht
  · have hnone := (Store.get?_empty i).symm.trans hr
    cases hnone
  · refine le_trans ?_ now_le_after
    rcases hc.row_before hr' with ⟨r, hr, heffect⟩ | ⟨_, env, args, eta, _, rfl⟩
    · rcases heffect.heartbeat hs' with h | h | ⟨hs, h⟩
      · exact (Option.some.inj (ht.symm.trans h)).le
      · cases ht.symm.trans h
      · exact ih i r t hr hs (h ▸ ht)
    · rcases state_enqueueVals env w.now args eta with h | h <;> cases h.symm.trans hs'

/-- An acquired row belongs to its worker. -/
theorem workerId_acquiredRow (cfg : WorkerConfig) (now : Time) (r : Job) :
    (cfg.acquiredRow now r).workerId = some cfg.workerUuid := by
  unfold WorkerConfig.acquiredRow
  split <;> rfl

/-- An owned row is started. -/
theorem started_of_ownedBy (h : r.ownedBy worker = true) : r.state = .started := by
  rw [Job.ownedBy, Bool.and_eq_true, beq_iff_eq] at h
  exact h.1

/-- A row that a worker owns behind an event was its own before, or has just been acquired. -/
theorem RowEffect.owned (h : RowEffect w e i r r') (ho : r'.ownedBy worker = true) :
    (∃ cfg limits locked, e = .acquireJobLock cfg limits locked ∧ cfg.workerUuid = worker ∧
      (acquireJobLock cfg limits locked w.now w.store).2 = some i) ∨ r.ownedBy worker = true := by
  have hs := started_of_ownedBy ho
  cases h with
  | cascaded hc =>
    cases hc with
    | kept => exact .inr ho
    | written _ _ _ _ hn => exact absurd hs hn
  | called _ hw => exact absurd hs hw.notStarted
  | @acquired cfg limits locked _ _ hi =>
    rw [Job.ownedBy, Bool.and_eq_true, beq_iff_eq, beq_iff_eq, workerId_acquiredRow] at ho
    exact .inl ⟨cfg, limits, locked, rfl, Option.some.inj ho.2, hi⟩
  | heartbeatJob | updateHeartbeats | handleTimeout => exact .inr ho
  | clearWorkerOwnership => simp [Job.ownedBy] at ho
  | workerDied | finalizeJob => cases hs
  | @handleException a exc =>
    revert hs
    cases dispositionOf a.cfg w.now exc r <;> exact fun hs ↦ by cases hs

/-- A new heartbeat comes from an acquisition or from a heartbeat statement, unless a call has
closed the job. -/
theorem RowEffect.refreshes (h : RowEffect w e i r r')
    (hcall : i ∈ calledOn e → r'.state = .started) {t : Time} (ht : r'.heartbeat = some t)
    (hne : r.heartbeat ≠ some t) :
    (∃ cfg limits locked, e = .acquireJobLock cfg limits locked ∧
      r'.workerId = some cfg.workerUuid ∧
      (acquireJobLock cfg limits locked w.now w.store).2 = some i) ∨
    w.refreshes e i r = true := by
  cases h with
  | cascaded hc => cases hc <;> exact absurd ht hne
  | called hi hw => exact absurd (hcall hi) hw.notStarted
  | @acquired cfg limits locked _ _ hi =>
    exact .inl ⟨cfg, limits, locked, rfl, workerId_acquiredRow _ _ _, hi⟩
  | heartbeatJob hown => exact .inr (by simp [World.refreshes, hown])
  | updateHeartbeats hi hw => exact .inr (by simp [World.refreshes, hi, hw])
  | handleTimeout => exact absurd ht hne
  | clearWorkerOwnership | workerDied | finalizeJob => cases ht
  | @handleException a exc =>
    revert ht
    cases dispositionOf a.cfg w.now exc r <;> exact fun ht ↦ by cases ht

/-- A row that a heartbeat refreshes. -/
theorem Commits.get?_of_refreshes (h : w.Commits e s') (hr : w.store.get? i = some r)
    (hb : w.refreshes e i r = true) : s'.get? i = some { r with heartbeat := some w.now } := by
  cases h with
  | heartbeatJob =>
    rw [get?_heartbeatJob, hr, Option.map_some]
    exact congrArg some (if_pos hb)
  | updateHeartbeats =>
    rw [get?_updateHeartbeats, hr, Option.map_some]
    exact congrArg some (if_pos hb)
  | _ => cases hb

end Heartbeat

/-- The active jobs of a worker are its pairs. -/
theorem mem_activeJobIds {w : World} {worker : WorkerUuid} {job : JobId} :
    job ∈ w.activeJobIds worker ↔ (worker, job) ∈ w.active := by
  simp [activeJobIds]

/-- A pair that is active behind an event was so before and its attempt has not ended, or the
event has acquired its job. -/
theorem mem_activeAfter {w : World} {e : Event} {x : WorkerUuid × JobId} :
    x ∈ w.activeAfter e ↔
      (x ∈ w.active ∧ ∀ a, e.ends = some a → x ≠ (a.cfg.workerUuid, a.job)) ∨
      ∃ cfg limits locked job, e = .acquireJobLock cfg limits locked ∧
        (acquireJobLock cfg limits locked w.now w.store).2 = some job ∧
        x = (cfg.workerUuid, job) := by
  cases e with
  | acquireJobLock cfg limits locked =>
    simp only [activeAfter]
    split
    · next job hjob => simp [Event.ends, hjob, or_comm]
    · next hjob => simp [Event.ends, hjob]
  | clearWorkerOwnership | die | finalizeJob | handleException =>
    simp [activeAfter, Event.ends]
  | _ => simp [activeAfter, Event.ends]

end World

/-- The active jobs change when a task ends and when a job is acquired. -/
theorem QueueWorker.activeJobIds_next {cfg : MainLoopConfig} {s s' : QueueWorker}
    {a : LoopAction} (h : s.next cfg a = some s') (hf : ∀ job, a ≠ .finish job)
    (ha : ∀ job, a ≠ .acquireJob (.ok (some job))) : s'.activeJobIds = s.activeJobIds := by
  cases effect_of_next h with
  | finish => exact absurd rfl (hf _)
  | acquired => exact absurd rfl (ha _)
  | _ => rfl

namespace Process

variable (cfg : MainLoopConfig) (job : JobId) (p : Process)

/-- A move of the main thread, of an attempt of the process, or of its heartbeat loop. -/
def OfWorker : Move → Prop
  | .tick _ => False
  | .acquireJob _ _ | .updateHeartbeats | .loop _ | .fire _ => True
  | .database e =>
    match e with
    | .heartbeatJob a | .handleTimeout a _ | .clearWorkerOwnership a | .die a
    | .finalizeJob a _ | .handleException a _ _ => Own cfg a
    | _ => False

/-- The move writes another heartbeat to the row of the job: the batch heartbeat finds the
job active, or an attempt of the process at the job beats. -/
def beats : Move → Bool
  | .updateHeartbeats =>
    decide (job ∈ p.loop.activeJobIds) && (p.world.store.get? job).any fun r ↦
      r.workerId == some cfg.workerUuid && r.heartbeat != some p.world.now
  | .database (.heartbeatJob a) =>
    decide (Own cfg a ∧ a.job = job) && (p.world.store.get? job).any fun r ↦
      r.ownedBy cfg.workerUuid && r.heartbeat != some p.world.now
  | _ => false

/-- The row of the job carries another heartbeat in `p'`. -/
def Refreshed (p' : Process) : Prop :=
  ∃ r r' t, p.world.store.get? job = some r ∧ p'.world.store.get? job = some r' ∧
    r'.heartbeat = some t ∧ r.heartbeat ≠ some t

/-- From `p` on no move of the worker refreshes the row of the job, and while the row is its
own every acquire query finds it stale once its stale time has passed. -/
structure Backstop (mid : List (Process × Move)) (q : Process) : Prop where
  unrefreshed : ∀ s ∈ mid, OfWorker cfg s.2 → ∀ u, s.1.Step cfg s.2 u → ¬ Refreshed job s.1 u
  stale : ∀ u ∈ states mid q, ∀ other : WorkerConfig,
    p.world.now + other.staleAfterSeconds * second < u.world.now →
      ∀ r, u.world.store.get? job = some r → r.ownedBy cfg.workerUuid = true →
        other.stale u.world.now r = true

section Backstop

variable {cfg job p} {p' q : Process} {m : Move} {past mid : List (Process × Move)}

/-- The pairs behind a step. -/
theorem Step.active_eq (hs : p.Step cfg m p') : p'.world.active =
    match event cfg m with
    | some e => p.world.activeAfter e
    | none => p.world.active := by
  rcases hs.world_cases with ⟨hw, he⟩ | ⟨e, s', he, _, hw⟩ <;> rw [hw, he]
  rfl

/-- The main loop calls `acquire_job_lock`. -/
theorem Step.mem_active_acquireJob {limits : QueueLimits} {locked : JobId → Bool}
    (hs : p.Step cfg (.acquireJob limits locked) p')
    (ih : (cfg.workerUuid, job) ∈ p.world.active ↔ job ∈ p.loop.activeJobIds) :
    (cfg.workerUuid, job) ∈ p'.world.active ↔ job ∈ p'.loop.activeJobIds := by
  have hloop := hs.loop
  rw [hs.active_eq]
  cases hj : p.acquires cfg (.acquireJob limits locked) with
  | none =>
    rw [loopAction, hj] at hloop
    rw [acquires] at hj
    rw [activeJobIds_next hloop (fun _ h ↦ by cases h) (fun _ h ↦ by cases h), ← ih]
    simp [event, mem_activeAfter, Event.ends, hj]
  | some acquired =>
    rw [loopAction, hj] at hloop
    rw [acquires] at hj
    rw [(tasks_acquired hloop).1, Finset.mem_insert, ← ih]
    simp [event, mem_activeAfter, Event.ends, hj, or_comm, eq_comm]

/-- An event of an attempt or of another worker. -/
theorem Step.mem_active_database {e : Event} (hs : p.Step cfg (.database e) p')
    (ih : (cfg.workerUuid, job) ∈ p.world.active ↔ job ∈ p.loop.activeJobIds) :
    (cfg.workerUuid, job) ∈ p'.world.active ↔ job ∈ p'.loop.activeJobIds := by
  have hloop := hs.loop
  have hacquire : ¬ ∃ c limits locked i, e = .acquireJobLock c limits locked ∧
      (acquireJobLock c limits locked p.world.now p.world.store).2 = some i ∧
      (cfg.workerUuid, job) = (c.workerUuid, i) := by
    rintro ⟨c, limits, locked, i, rfl, _, hpair⟩
    exact (bne_iff_ne.mp hs.allowed).symm (Prod.mk.inj hpair).1
  rw [hs.active_eq]
  show (cfg.workerUuid, job) ∈ p.world.activeAfter e ↔ _
  rw [mem_activeAfter, or_iff_left hacquire]
  cases hends : e.ends.filter fun a ↦ Own cfg a with
  | none =>
    rw [loopAction, hends] at hloop
    rw [show p'.loop = p.loop from hloop, ← ih]
    refine and_iff_left fun a ha hpair ↦ ?_
    rw [ha, Option.filter_some] at hends
    simp [Own, (Prod.mk.inj hpair).1] at hends
  | some a =>
    obtain ⟨ha, ho⟩ := Option.filter_eq_some_iff.mp hends
    rw [loopAction, hends] at hloop
    obtain ⟨_, hloop⟩ := Option.ite_none_right_eq_some.mp hloop
    rw [← Option.some.inj hloop]
    show _ ↔ job ∈ p.loop.activeJobIds.erase a.job
    have hown : a.cfg.workerUuid = cfg.workerUuid := of_decide_eq_true ho
    rw [Finset.mem_erase, ← ih, and_comm]
    simp [ha, hown]

/-- A step keeps the pairs of the worker and the set of its main loop the same. -/
theorem Step.mem_active_iff (hs : p.Step cfg m p')
    (ih : (cfg.workerUuid, job) ∈ p.world.active ↔ job ∈ p.loop.activeJobIds) :
    (cfg.workerUuid, job) ∈ p'.world.active ↔ job ∈ p'.loop.activeJobIds := by
  cases m with
  | tick | updateHeartbeats =>
    rw [hs.active_eq, activeJobIds_next hs.loop nofun nofun, ← ih]
    simp [event, mem_activeAfter, Event.ends]
  | fire a =>
    have hloop : p'.loop = p.loop := hs.loop
    rw [hs.active_eq, hloop, ← ih]
    rfl
  | loop a =>
    have hsilent : a.silent = true := hs.allowed
    rw [hs.active_eq, activeJobIds_next hs.loop ?_ ?_, ← ih]
    · rfl
    · rintro job rfl
      cases hsilent
    · rintro job rfl
      cases hsilent
  | acquireJob => exact hs.mem_active_acquireJob ih
  | database => exact hs.mem_active_database ih

/-- The batch heartbeat reads the set of the main loop. -/
theorem mem_activeJobIds_iff (h : Run cfg past p) :
    job ∈ p.world.activeJobIds cfg.workerUuid ↔ job ∈ p.loop.activeJobIds := by
  rw [mem_activeJobIds]
  refine h.always (P := fun p ↦ (cfg.workerUuid, job) ∈ p.world.active ↔
    job ∈ p.loop.activeJobIds) ?_ fun p m p' ih hs ↦ hs.mem_active_iff ih
  rintro p ⟨⟨now, stop, hl⟩, hw, _⟩
  rw [hw, hl]
  unfold QueueWorker.run
  split <;> simp [World.init, QueueWorker.create, QueueWorker.goto, QueueWorker.poolShutdown]

/-- An acquisition of the worker is a move of its main thread. -/
theorem Step.acquires (hs : p.Step cfg m p') {c : WorkerConfig} {limits : QueueLimits}
    {locked : JobId → Bool} (he : event cfg m = some (.acquireJobLock c limits locked))
    (hjob : (acquireJobLock c limits locked p.world.now p.world.store).2 = some job)
    (hown : OfWorker cfg m ∨ c.workerUuid = cfg.workerUuid) : p.acquires cfg m = some job := by
  cases m with
  | acquireJob =>
    cases he
    exact hjob
  | database =>
    cases he
    exact hown.elim False.elim fun ho ↦ absurd ho (bne_iff_ne.mp hs.allowed)
  | tick | updateHeartbeats | loop | fire => cases he

/-- The worker calls no public method. -/
theorem calledOn_of_ofWorker {e : Event} (hm : OfWorker cfg m) (he : event cfg m = some e) :
    calledOn e = [] := by
  cases m with
  | tick | acquireJob | updateHeartbeats => cases he; rfl
  | loop | fire => cases he
  | database =>
    cases he
    cases e with
    | runNow | buttonSetToDone | buttonSetToFailed | buttonRequeue | buttonCancelled =>
      exact hm.elim
    | _ => rfl

/-- A heartbeat statement of the worker matches rows under its own id. -/
theorem workerId_of_refreshes {e : Event} {r : Job} (hm : OfWorker cfg m)
    (he : event cfg m = some e) (hb : p.world.refreshes e job r = true) :
    r.workerId = some cfg.workerUuid := by
  cases m with
  | tick | acquireJob => cases he; cases hb
  | loop | fire => cases he
  | updateHeartbeats =>
    cases he
    rw [World.refreshes, Bool.and_eq_true] at hb
    exact beq_iff_eq.mp hb.2
  | database =>
    cases he
    cases e with
    | heartbeatJob a =>
      rw [World.refreshes, Bool.and_eq_true, Job.ownedBy, Bool.and_eq_true,
        show a.cfg.workerUuid = _ from hm] at hb
      exact beq_iff_eq.mp hb.2.2
    | updateHeartbeats => exact hm.elim
    | _ => cases hb

/-- A heartbeat statement that matches the row under the id of the worker, and writes another
heartbeat, is a beat. -/
theorem Step.beats (h : Run cfg past p) (hs : p.Step cfg m p') {e : Event} {r : Job}
    (he : event cfg m = some e) (hr : p.world.store.get? job = some r)
    (hb : p.world.refreshes e job r = true) (hw : r.workerId = some cfg.workerUuid)
    (hne : r.heartbeat ≠ some p.world.now) : p.beats cfg job m = true := by
  cases m with
  | updateHeartbeats =>
    cases he
    rw [World.refreshes, Bool.and_eq_true, List.contains_iff_mem, mem_activeJobIds_iff h] at hb
    simp [Process.beats, hb.1, hr, hw, hne]
  | database =>
    cases he
    cases e with
    | heartbeatJob a =>
      rw [World.refreshes, Bool.and_eq_true, beq_iff_eq] at hb
      obtain ⟨rfl, hown⟩ := hb
      have ho : a.cfg.workerUuid = cfg.workerUuid := by
        rw [Job.ownedBy, hw, Bool.and_eq_true, beq_iff_eq, beq_iff_eq] at hown
        exact (Option.some.inj hown.2).symm
      rw [ho] at hown
      simp [Process.beats, Own, ho, hr, hown, hne]
    | updateHeartbeats worker =>
      rw [World.refreshes, Bool.and_eq_true, hw, beq_iff_eq, Option.some.injEq] at hb
      exact absurd hb.2.symm (bne_iff_ne.mp hs.allowed)
    | _ => cases hb
  | tick | acquireJob => cases he; cases hb
  | loop | fire => cases he

/-- A beat refreshes the row. -/
theorem Step.refreshed (h : Run cfg past p) (hs : p.Step cfg m p')
    (hb : p.beats cfg job m = true) : OfWorker cfg m ∧ p.Refreshed job p' := by
  have hwrite {e : Event} {r : Job} (he : event cfg m = some e)
      (hr : p.world.store.get? job = some r) (hm : p.world.refreshes e job r = true)
      (hne : r.heartbeat ≠ some p.world.now) : p.Refreshed job p' := by
    rcases hs.world_cases with ⟨_, hnone⟩ | ⟨e', s', he', hc, hw⟩
    · cases he.symm.trans hnone
    · obtain rfl := Option.some.inj (he.symm.trans he')
      refine ⟨r, { r with heartbeat := some p.world.now }, p.world.now, hr, ?_, rfl, hne⟩
      rw [hw]
      exact hc.get?_of_refreshes hr hm
  cases m with
  | updateHeartbeats =>
    rw [Process.beats, Bool.and_eq_true, decide_eq_true_eq, Option.any_eq_true,
      ← mem_activeJobIds_iff h] at hb
    obtain ⟨hactive, r, hr, hrow⟩ := hb
    rw [Bool.and_eq_true, bne_iff_ne] at hrow
    refine ⟨trivial, hwrite rfl hr ?_ hrow.2⟩
    rw [World.refreshes, List.contains_iff_mem.mpr hactive, hrow.1]
    rfl
  | database e =>
    cases e with
    | heartbeatJob a =>
      rw [Process.beats, Bool.and_eq_true, decide_eq_true_eq, Option.any_eq_true] at hb
      obtain ⟨⟨ho, hjob⟩, r, hr, hrow⟩ := hb
      rw [Bool.and_eq_true, bne_iff_ne] at hrow
      refine ⟨ho, hwrite rfl hr ?_ hrow.2⟩
      rw [World.refreshes, hjob, show a.cfg.workerUuid = _ from ho, hrow.1, beq_self_eq_true]
      rfl
    | _ => cases hb
  | _ => cases hb

/-- A heartbeat that the row carries behind a move which neither acquires nor beats it was
there before, for a move of the worker and for a row of its own. -/
theorem Step.heartbeat_before (h : Run cfg past p) (hs : p.Step cfg m p')
    (hacq : p.acquires cfg m ≠ some job) (hb : p.beats cfg job m = false) {r r' : Job}
    (hr : p.world.store.get? job = some r) (hr' : p'.world.store.get? job = some r')
    (hown : OfWorker cfg m ∨ r'.ownedBy cfg.workerUuid = true) {t : Time}
    (ht : r'.heartbeat = some t) : r.heartbeat = some t := by
  by_contra hne
  rcases hs.world_cases with ⟨hw, _⟩ | ⟨e, s', he, hc, hw⟩
  · rw [hw] at hr'
    cases hr.symm.trans hr'
    exact hne ht
  · rw [hw] at hr'
    obtain ⟨q, hq, heffect⟩ := hc.row hr
    obtain rfl : q = r' := Option.some.inj (hq.symm.trans hr')
    have hcall (hi : job ∈ calledOn e) : q.state = .started := by
      rcases hown with hm | ho
      · rw [calledOn_of_ofWorker hm he] at hi
        cases hi
      · exact started_of_ownedBy ho
    rcases heffect.refreshes hcall ht hne with ⟨c, limits, locked, rfl, hworker, hjob⟩ | hm
    · refine hacq (hs.acquires he hjob (hown.imp_right fun ho ↦ ?_))
      rw [Job.ownedBy, Bool.and_eq_true, hworker, beq_iff_eq, beq_iff_eq] at ho
      exact Option.some.inj ho.2
    · have hrow := Option.some.inj (hq.symm.trans (hc.get?_of_refreshes hr hm))
      have hnow : r.heartbeat ≠ some p.world.now := by
        rw [hrow] at ht
        rwa [← ht] at hne
      have hworker : r.workerId = some cfg.workerUuid := by
        rcases hown with hm' | ho
        · exact workerId_of_refreshes hm' he hm
        · rw [hrow, Job.ownedBy, Bool.and_eq_true, beq_iff_eq, beq_iff_eq] at ho
          exact ho.2
      rw [hs.beats h he hr hm hworker hnow] at hb
      cases hb

/-- A row that the worker owns behind a move which does not acquire it was its own before. -/
theorem Step.owned (hs : p.Step cfg m p') (hacq : p.acquires cfg m ≠ some job) {r' : Job}
    (hr' : p'.world.store.get? job = some r') (ho : r'.ownedBy cfg.workerUuid = true) :
    ∃ r, p.world.store.get? job = some r ∧ r.ownedBy cfg.workerUuid = true := by
  rcases hs.world_cases with ⟨hw, _⟩ | ⟨e, s', he, hc, hw⟩
  · exact ⟨r', hw ▸ hr', ho⟩
  · rw [hw] at hr'
    rcases hc.row_before hr' with ⟨r, hr, heffect⟩ | ⟨_, env, args, eta, _, rfl⟩
    · rcases heffect.owned ho with ⟨c, limits, locked, rfl, hworker, hjob⟩ | ho
      · exact absurd (hs.acquires he hjob (.inr hworker)) hacq
      · exact ⟨r, hr, ho⟩
    · rcases state_enqueueVals env p.world.now args eta with h | h <;>
        simp [Job.ownedBy, h] at ho

/-- Until the worker acquires the job again, the row of a job whose timeout has fired is left
to the stale window exactly when no move of the worker beats it. -/
theorem backstop_iff {a : Attempt} (h : Run cfg (mid ++ (p, .fire a) :: past) q)
    (hacq : Guarded (fun u m ↦ u.acquires cfg m ≠ some a.job) mid) :
    p.Backstop cfg a.job mid q ↔ Guarded (fun u m ↦ u.beats cfg a.job m = false) mid := by
  have hbefore {s : Process × Move} (hs : s ∈ mid) : ∃ past', Run cfg past' s.1 :=
    h.before (List.mem_append_left _ hs)
  constructor
  · rintro ⟨hquiet, _⟩ s hs
    obtain ⟨past', hrun⟩ := hbefore hs
    obtain ⟨u, _, hstep⟩ := h.after (List.mem_append_left _ hs)
    rw [← Bool.not_eq_true]
    intro hb
    obtain ⟨hm, hrefreshed⟩ := hstep.refreshed hrun hb
    exact hquiet s hs hm u hstep hrefreshed
  · intro hg
    refine ⟨?_, ?_⟩
    · rintro s hs hm u hstep ⟨r, r', t, hr, hr', ht, hne⟩
      obtain ⟨past', hrun⟩ := hbefore hs
      exact hne (hstep.heartbeat_before hrun (hacq s hs) (hg s hs) hr hr' (.inl hm) ht)
    · intro u hu other hlate r hr ho
      obtain ⟨t, hrun, hmid⟩ := h.split
      obtain ⟨hp, hfire⟩ := run_cons.mp hrun
      have hworld : t.world = p.world := hfire.world
      -- The heartbeat of the row is no later than the timeout in every state of the part.
      have hbound : ∀ u ∈ states mid q, (∃ past', Run cfg past' u) ∧
          ∀ r, u.world.store.get? a.job = some r → r.ownedBy cfg.workerUuid = true →
            ∀ beat, r.heartbeat = some beat → beat ≤ p.world.now := by
        have hguarded : Guarded (fun u m ↦ u.acquires cfg m ≠ some a.job ∧
            u.beats cfg a.job m = false) mid := fun s hs ↦ ⟨hacq s hs, hg s hs⟩
        refine hmid.invariant_states hguarded ?_ ?_
        · rintro _ rfl
          refine ⟨⟨_, hrun⟩, fun r hr ho beat hbeat ↦ ?_⟩
          obtain ⟨_, htrace⟩ := trace hp
          rw [hworld] at hr
          exact htrace.reachable.heartbeat_le hr (started_of_ownedBy ho) hbeat
        · rintro v m v' ⟨⟨past', hv⟩, ih⟩ ⟨hnot, hb⟩ hstep
          refine ⟨⟨_, hv.step hstep⟩, fun r' hr' ho' beat hbeat ↦ ?_⟩
          obtain ⟨r, hr, ho⟩ := hstep.owned hnot hr' ho'
          exact ih r hr ho beat (hstep.heartbeat_before hv hnot hb hr hr' (.inr ho') hbeat)
      rw [WorkerConfig.stale, Option.all_eq_true]
      intro beat hbeat
      have hle := (hbound u hu).2 r hr ho beat hbeat
      rw [decide_eq_true_eq]
      linarith

end Backstop

/-- The attempt of a process that has acquired one job. -/
def firstAttempt : Attempt := ⟨1, { workerUuid := 0 }, 1⟩

/-- The job of a minute blocks its thread while the loop waits for a slot. -/
def overruns : List Move :=
  takesJob ++ [.tick 60000000, .database (.heartbeatJob firstAttempt)]

/-- Two minutes pass. -/
def staysBlocked : List Move :=
  [.database (.handleTimeout firstAttempt 60), .tick 61000000, .loop .slept, .loop .read]

/-- The same with one slot, which the job occupies. -/
def overrunsOnlySlot : List Move :=
  [.database (.enqueue {}
      { modelName := "res.partner", methodName := "ping", timeout := some 60 }),
    .loop (.listen (.ok ())), .loop (.gate (.ok true)), .loop .checkRegistry, .loop .read,
    .loop (.gate (.ok true)), .acquire, .loop .read, .updateHeartbeats, .tick 60000000,
    .database (.heartbeatJob firstAttempt)]

/-- A cycle of the main loop that finds the pool full. -/
def fullCycle : List Move :=
  [.tick 40000000, .loop (.select (.ok ())), .loop (.gate (.ok true)), .loop .checkRegistry,
    .loop .read, .updateHeartbeats]

/-- A run from a launched process to a timeout, and on. -/
def timesOut (cfg : MainLoopConfig) (before after : List Move) :
    Option ((List (Process × Move) × Process) × List (Process × Move) × Process) :=
  (replay (next cfg) launched before).bind fun s ↦
    (s.2.next cfg (.fire firstAttempt)).bind fun t ↦
      (replay (next cfg) t after).map fun r ↦ (s, r)

/-- What is computed is a run. -/
theorem run_of_timesOut {cfg : MainLoopConfig} {before after : List Move} {p q : Process}
    {past mid : List (Process × Move)}
    (h : timesOut cfg before after = some ((past, p), mid, q)) :
    Run cfg (mid ++ (p, .fire firstAttempt) :: past) q := by
  obtain ⟨s, hs, h⟩ := Option.bind_eq_some_iff.mp h
  obtain ⟨t, ht, h⟩ := Option.bind_eq_some_iff.mp h
  obtain ⟨r, hr, heq⟩ := Option.map_eq_some_iff.mp h
  cases heq
  have hbefore := run_of_replay hs
  exact (hbefore.step (step_of_next ht)).replay step_of_next hr

/-- A job that overruns its timeout while the loop waits for a slot is left to the stale
window. -/
theorem backstop_iff_staysBlocked : ∃ (past mid : List (Process × Move)) (p q : Process),
    Run { workerUuid := 0 } (mid ++ (p, .fire firstAttempt) :: past) q ∧
      firstAttempt ∈ q.world.attempts ∧ p.world.now + 60 * second < q.world.now ∧
      p.Backstop { workerUuid := 0 } 1 mid q := by
  let cfg : MainLoopConfig := { workerUuid := 0 }
  have hrun : (timesOut cfg overruns staysBlocked).map (fun (s, r) ↦
      (decide (firstAttempt ∈ r.2.world.attempts),
        decide (s.2.world.now + 60 * second < r.2.world.now),
        decide (∀ u ∈ r.1, u.1.acquires cfg u.2 ≠ some 1),
        decide (∀ u ∈ r.1, u.1.beats cfg 1 u.2 = false))) =
      some (true, true, true, true) := by decide +kernel
  obtain ⟨⟨⟨past, p⟩, mid, q⟩, hs, hp⟩ := Option.map_eq_some_iff.mp hrun
  simp only [Prod.mk.injEq, decide_eq_true_eq] at hp
  obtain ⟨hblocked, hlate, hacq, hbeats⟩ := hp
  have hrun := run_of_timesOut hs
  exact ⟨past, mid, p, q, hrun, hblocked, hlate, (backstop_iff hrun hacq).mpr hbeats⟩

/-- The job that occupies the only slot is kept fresh by the main loop. -/
theorem not_backstop_fullPool : ¬ ∀ (cfg : MainLoopConfig) (past mid : List (Process × Move))
    (p q : Process) (a : Attempt), Run cfg (mid ++ (p, .fire a) :: past) q →
      Own cfg a → a ∈ q.world.attempts →
      Guarded (fun u m ↦ u.acquires cfg m ≠ some a.job) mid → p.Backstop cfg a.job mid q := by
  intro hall
  let cfg : MainLoopConfig := { workerUuid := 0, concurrency := 1 }
  let after : List Move :=
    .database (.handleTimeout firstAttempt 60) :: (fullCycle ++ fullCycle)
  have hrun : (timesOut cfg overrunsOnlySlot after).bind (fun (s, r) ↦
      (r.2.world.store.get? 1).map fun row ↦
        (decide (firstAttempt ∈ r.2.world.attempts),
          decide (s.2.world.now + 60 * second < r.2.world.now),
          decide (∀ u ∈ r.1, u.1.acquires cfg u.2 ≠ some 1), row.ownedBy 0,
          cfg.stale r.2.world.now row)) = some (true, true, true, true, false) := by
    decide +kernel
  obtain ⟨⟨⟨past, p⟩, mid, q⟩, hs, hrow⟩ := Option.bind_eq_some_iff.mp hrun
  obtain ⟨row, hr, hp⟩ := Option.map_eq_some_iff.mp hrow
  simp only [Prod.mk.injEq, decide_eq_true_eq] at hp
  obtain ⟨hblocked, hlate, hacq, hown, hfresh⟩ := hp
  have hstale := (hall cfg past mid p q firstAttempt (run_of_timesOut hs) rfl hblocked hacq).stale
    q List.mem_cons_self cfg.toWorkerConfig hlate row hr hown
  exact Bool.false_ne_true (hfresh.symm.trans hstale)

end Process
end JobWorker
