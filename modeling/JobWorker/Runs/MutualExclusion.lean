import JobWorker.System

/-!
# Mutual exclusion of execution

`acquire_job_lock` statement by statement: a worker's transaction reads candidates on a
snapshot, locks the first one that is not locked and whose latest version still meets the
predicate, updates it and commits (`job_worker/cli/worker.py:548–762`). Any number of such
transactions interleave with heartbeats, outcomes, crashes and new jobs. While every
executing attempt is refreshed within the stale window of the acquiring workers
(`cli/worker.py:764–809`), no job is executed twice at a time.
-/

namespace JobWorker

/-! ### What a transaction leaves to running jobs -/

/-- From `s` to `s'` no row starts, the rows in `ends` are not started any more, and the
other rows that do not wait stay as they are. -/
structure LeavesBusy (s s' : Store) (ends : JobId → Prop) : Prop where
  row : ∀ i r, ¬ ends i → s.get? i = some r → r.isWaiting = false → s'.get? i = some r
  starts : ∀ i, s'.stateOf i = some .started → ¬ ends i ∧
    ∃ r, s.get? i = some r ∧ r.isWaiting = false

section LeavesBusy

variable {s s' : Store} {ends : JobId → Prop} {i j : JobId} {r r' : Job} {now : Time}

/-- A started row is an old one. -/
theorem LeavesBusy.started (h : LeavesBusy s s' ends) (hr' : s'.get? i = some r')
    (hs : r'.state = .started) : ¬ ends i ∧ s.get? i = some r' := by
  obtain ⟨hn, r, hr, hw⟩ := h.starts i (by rw [Store.stateOf, hr', Option.map_some, hs])
  refine ⟨hn, hr.trans ?_⟩
  rw [← hr', h.row i r hn hr hw]

/-- A success ends its own job. -/
theorem leavesBusy_finalizeJob {serialized : Option String}
    (h : finalizeJob now serialized s j = .ok s') : LeavesBusy s s' (· = j) := by
  have hc : CompletesSuccessfully s j s' := .finalizeJob h
  have hrow {i : JobId} {r : Job} (hi : i ≠ j) (hr : s.get? i = some r)
      (hw : r.isWaiting = false) : s'.get? i = some r := by
    have hb : ¬ s.CancelledBelow j i := fun hb ↦ by
      rw [(Store.waiting_iff hr).mp hb.entered.1] at hw
      cases hw
    obtain ⟨now', hrow⟩ := (hc.row hi hr).2 hb
    rw [hrow, successRow]
    simp [Store.isWaitingChild, isWaitingDependent, hw]
  refine ⟨fun i r hi hr hw ↦ hrow hi hr hw, fun i hs ↦ ?_⟩
  obtain ⟨r', hr', _⟩ := Option.map_eq_some_iff.mp hs
  obtain ⟨r, hr, _⟩ := hc.sameWiring.row_before hr'
  have hi : i ≠ j := by
    rintro rfl
    rw [hc.stateOf_self hr] at hs
    cases hs
  refine ⟨hi, r, hr, ?_⟩
  rw [Bool.eq_false_iff]
  intro hw
  -- A waiting row is cancelled, settled, or goes on waiting.
  rcases hc.waiting_cases hi hr hw with ⟨_, hc⟩ | ⟨_, _, hc⟩ | ⟨q, hq, hw', _⟩
  · rw [hc] at hs
    cases hs
  · rw [hc] at hs
    split at hs <;> cases hs
  · rw [Store.stateOf, hq, Option.map_some, Job.isWaiting_iff.mp hw'] at hs
    cases hs

/-- An exception ends its own job. -/
theorem leavesBusy_handleException {cfg : WorkerConfig} {exc : JobException}
    {traceback : String} (h : handleException cfg now exc traceback s j = .ok s')
    (hr : s.get? j = some r) : LeavesBusy s s' (· = j) := by
  have hself := get?_handleException_self h hr
  refine ⟨fun i q hi hq hn ↦ get?_handleException_of_not_waiting h hr hi hq hn, fun i hs ↦ ?_⟩
  have hi : i ≠ j := by
    rintro rfl
    rw [Store.stateOf, hself, Option.map_some] at hs
    cases hd : dispositionOf cfg now exc r <;> rw [hd] at hs <;> cases hs
  obtain ⟨s₁, hw, hs'⟩ := handleException_eq h hr
  cases hd : dispositionOf cfg now exc r with
  | retry delaySeconds counted =>
    rw [hd] at hs' hw
    obtain rfl : s' = s₁ := hs'
    rw [Store.stateOf, Store.get?_write hw, if_neg hi] at hs
    obtain ⟨q, hq, hstate⟩ := Option.map_eq_some_iff.mp hs
    exact ⟨hi, q, hq, by simp [Job.isWaiting, hstate]⟩
  | fail counted =>
    have hf : FailsPermanently s [j] s' := .handleException hr hd h
    obtain ⟨q', hq', _⟩ := Option.map_eq_some_iff.mp hs
    obtain ⟨q, hq, _⟩ := hf.sameWiring.row_before hq'
    refine ⟨hi, q, hq, ?_⟩
    rw [Bool.eq_false_iff]
    intro hwait
    have hmem : i ∉ [j] := by rwa [List.mem_singleton]
    by_cases hit : s.FailureHit [j] i
    · rw [(hf.stateOf hmem hq).1 hit] at hs
      split at hs <;> cases hs
    · rw [(hf.stateOf hmem hq).2 hit, Job.isWaiting_iff.mp hwait] at hs
      cases hs

/-- An exhausted reclaim ends its own job. -/
theorem leavesBusy_workerDied {s₁ : Store} (hother : ∀ i, i ≠ j → s₁.get? i = s.get? i)
    (hself : s₁.get? j = some (workerDiedRow now r)) :
    LeavesBusy s (cascadeWorkerDied now s₁ j) (· = j) := by
  refine ⟨fun i q hi hq hn ↦ ?_, fun i hs ↦ ?_⟩
  · rw [← hother i hi] at hq
    rw [get?_cascadeWorkerDied hq, if_neg fun hc ↦ by rw [hn] at hc; cases hc.1]
  · obtain ⟨q', hq', _⟩ := Option.map_eq_some_iff.mp hs
    obtain ⟨q, hq, _⟩ := (sameWiring_cascadeWorkerDied now s₁ j).row_before hq'
    rw [stateOf_cascadeWorkerDied hq] at hs
    have hi : i ≠ j := by
      rintro rfl
      rw [hself, Option.some.injEq] at hq
      subst hq
      rw [if_neg fun hc ↦ by cases hc.1] at hs
      cases hs
    refine ⟨hi, q, by rw [← hother i hi, hq], ?_⟩
    rw [Bool.eq_false_iff]
    intro hw
    split at hs
    · split at hs <;> cases hs
    · rw [Job.isWaiting_iff.mp hw] at hs
      cases hs

/-- A new job is not started. -/
theorem leavesBusy_enqueue {env : OrmEnv} {args : EnqueueArgs}
    (h : enqueue env now s args = .ok (s', j)) : LeavesBusy s s' fun _ ↦ False := by
  rcases enqueue_cases h with ⟨rfl, _⟩ | ⟨eta, _, _, hcreate⟩
  · refine ⟨fun _ _ _ hr _ ↦ hr, fun i hs ↦ ⟨id, ?_⟩⟩
    obtain ⟨q, hq, hstate⟩ := Option.map_eq_some_iff.mp hs
    exact ⟨q, hq, by simp [Job.isWaiting, hstate]⟩
  · refine ⟨fun i q _ hq _ ↦ Store.get?_create_of_some hcreate hq, fun i hs ↦ ⟨id, ?_⟩⟩
    obtain ⟨q, hq, hstate⟩ := Option.map_eq_some_iff.mp hs
    rcases Store.get?_create_cases hcreate hq with ⟨_, rfl⟩ | hq
    · rcases state_enqueueVals env now args eta with h | h <;> cases h.symm.trans hstate
    · exact ⟨q, hq, by simp [Job.isWaiting, hstate]⟩

end LeavesBusy

/-! ### Acquire transactions -/

/-- How far an acquire transaction has come: it has begun, it goes through the candidates
that its statement has selected, or it has locked a job in the version `row`. -/
inductive AcquirePhase
  | begun
  | scanning (candidates : List JobId)
  | locked (job : JobId) (row : Job)

/-- A transaction of `_acquire_job` with its `NOW()`. -/
structure Acquiring where
  cfg : WorkerConfig
  now : Time
  phase : AcquirePhase

/-- The database, the clock, the acquire transactions in progress and the executing
attempts under the ids of the transactions that acquired them. Two columns are history
only: the attempts that ended without an outcome, and for every job the attempts to which
it was returned since its row was last pending. -/
structure Fleet where
  store : Store
  now : Time
  acquiring : Nat → Option Acquiring := fun _ ↦ none
  attempts : Nat → Option Attempt := fun _ ↦ none
  crashed : List Nat := []
  returned : JobId → List Nat := fun _ ↦ []
  nextTransaction : Nat := 0

/-- An entry of an updated table is the new one or an old one. -/
theorem update_eq_some {α : Type} {f : Nat → Option α} {v : Option α} {m n : Nat} {x : α}
    (h : Function.update f n v m = some x) : m = n ∧ v = some x ∨ m ≠ n ∧ f m = some x := by
  rw [Function.update_apply] at h
  split at h
  · next hm => exact .inl ⟨hm, h⟩
  · next hm => exact .inr ⟨hm, h⟩

namespace Fleet

/-- Transaction `n` holds the row lock of `job`. -/
def Locks (w : Fleet) (n : Nat) (job : JobId) : Prop :=
  ∃ t r, w.acquiring n = some t ∧ t.phase = .locked job r

/-- Transaction `n` goes on to `phase`. -/
def setPhase (w : Fleet) (n : Nat) (t : Acquiring) (phase : AcquirePhase) : Fleet :=
  { w with acquiring := Function.update w.acquiring n (some { t with phase := phase }) }

/-- Transaction `n` is over. -/
def finish (w : Fleet) (n : Nat) : Fleet :=
  { w with acquiring := Function.update w.acquiring n none }

/-- Transaction `n` commits what `acquire_job_lock` did with the locked row: a returned job
starts an attempt, within the started period of the row if it was reclaimed. -/
def committed (w : Fleet) (n : Nat) (cfg : WorkerConfig) (r : Job) : Store × Option JobId → Fleet
  | (s', none) => { w.finish n with store := s' }
  | (s', some job) =>
    { w.finish n with
      store := s'
      attempts := Function.update w.attempts n (some ⟨n, cfg, job⟩)
      returned := Function.update w.returned job
        (n :: if r.state = .started then w.returned job else []) }

/-- Attempt `n` is over, with this table. -/
def recorded (w : Fleet) (n : Nat) (s' : Store) : Fleet :=
  { w with store := s', attempts := Function.update w.attempts n none }

/-- One step of the fleet. A statement that has to wait for a row lock is the step that it
takes behind the wait. -/
inductive Step (w : Fleet) : Fleet → Prop
  | tick (elapsed : Nat) : Step w { w with now := w.now + elapsed }
  | enqueue {env : OrmEnv} {args : EnqueueArgs} {s' : Store} {j : JobId} :
      JobWorker.enqueue env w.now w.store args = .ok (s', j) → Step w { w with store := s' }
  | begin (cfg : WorkerConfig) : Step w { w with
      acquiring := Function.update w.acquiring w.nextTransaction (some ⟨cfg, w.now, .begun⟩)
      nextTransaction := w.nextTransaction + 1 }
  /-- The statement takes its snapshot. -/
  | select {n : Nat} {t : Acquiring} (limits : QueueLimits) :
      w.acquiring n = some t → t.phase = .begun →
      Step w (w.setPhase n t (.scanning (t.cfg.candidates limits t.now w.store)))
  /-- Another transaction holds the row lock, or the latest version fails the predicate. -/
  | skipLocked {n : Nat} {t : Acquiring} {job : JobId} {jobs : List JobId} :
      w.acquiring n = some t → t.phase = .scanning (job :: jobs) →
      Step w (w.setPhase n t (.scanning jobs))
  | forUpdate {n : Nat} {t : Acquiring} {job : JobId} {jobs : List JobId} {r : Job} :
      w.acquiring n = some t → t.phase = .scanning (job :: jobs) →
      (∀ m, ¬ w.Locks m job) → w.store.get? job = some r → t.cfg.acquirable t.now r = true →
      Step w (w.setPhase n t (.locked job r))
  | noJob {n : Nat} {t : Acquiring} : w.acquiring n = some t → t.phase = .scanning [] →
      Step w (w.finish n)
  | commit {n : Nat} {t : Acquiring} {job : JobId} {r : Job} (hr : w.store.get? job = some r)
      (ha : r.state.isActive = true) : w.acquiring n = some t → t.phase = .locked job r →
      Step w (w.committed n t.cfg r (acquireRow t.cfg t.now w.store job r hr ha))
  | heartbeatJob {n : Nat} {a : Attempt} {now : Time} : w.attempts n = some a →
      Step w { w with store := JobWorker.heartbeatJob a.cfg.workerUuid now w.store a.job }
  | updateHeartbeats {worker : WorkerUuid} {now : Time} {activeJobIds : List JobId} :
      (∀ job ∈ activeJobIds, ∀ r, w.store.get? job = some r → r.workerId = some worker →
        ∀ n, ¬ w.Locks n job) →
      Step w { w with store := JobWorker.updateHeartbeats worker now w.store activeJobIds }
  | finalizeJob {n : Nat} {a : Attempt} {serialized : Option String} {s' : Store} :
      w.attempts n = some a → JobWorker.finalizeJob w.now serialized w.store a.job = .ok s' →
      Step w (w.recorded n s')
  | handleException {n : Nat} {a : Attempt} {exc : JobException} {traceback : String}
      {s' : Store} : w.attempts n = some a →
      JobWorker.handleException a.cfg w.now exc traceback w.store a.job = .ok s' →
      Step w (w.recorded n s')
  | crash {n : Nat} {a : Attempt} : w.attempts n = some a →
      Step w { w.recorded n w.store with crashed := n :: w.crashed }

/-- Every executing attempt has been refreshed within the stale window of every worker
that acquires. -/
def Refreshed (w : Fleet) : Prop :=
  ∀ n a, w.attempts n = some a → ∀ r h, w.store.get? a.job = some r → r.heartbeat = some h →
    ∀ m t, w.acquiring m = some t → w.now - h ≤ t.cfg.staleAfterSeconds * second

/-- Fleets reached from a table without started jobs over refreshed fleets. -/
inductive Reachable : Fleet → Prop
  | init {s : Store} (now : Time) : (∀ i, s.stateOf i ≠ some .started) →
      Reachable { store := s, now := now }
  | step {w w' : Fleet} : Reachable w → w.Refreshed → w.Step w' → Reachable w'

/-! ### The invariant -/

/-- Locks and claims exclude each other, and every started period has been returned to one
attempt after another that ended without an outcome. -/
structure Inv (w : Fleet) : Prop where
  clock : ∀ n t, w.acquiring n = some t → t.now ≤ w.now
  fresh : ∀ n, w.nextTransaction ≤ n → w.acquiring n = none ∧ w.attempts n = none
  apart : ∀ n t, w.acquiring n = some t → w.attempts n = none
  owns : ∀ n a, w.attempts n = some a → ∃ r h, w.store.get? a.job = some r ∧
    r.ownedBy a.cfg.workerUuid = true ∧ r.heartbeat = some h
  unique : ∀ m n a b, w.attempts m = some a → w.attempts n = some b → a.job = b.job → m = n
  locked : ∀ n t job r, w.acquiring n = some t → t.phase = .locked job r →
    w.store.get? job = some r ∧ r.isWaiting = false ∧
      ∀ m a, w.attempts m = some a → a.job ≠ job
  exclusive : ∀ m n job, w.Locks m job → w.Locks n job → m = n
  periods : ∀ job r, w.store.get? job = some r → r.state = .started →
    ∃ n rest, w.returned job = n :: rest ∧ (∀ m ∈ rest, m ∈ w.crashed) ∧
      (n ∈ w.crashed ∨ ∃ a, w.attempts n = some a ∧ a.job = job)

section Inv

variable {w : Fleet} {n : Nat} {t : Acquiring} {a : Attempt} {job : JobId} {r : Job}
  {s' : Store}

/-- An owned row does not wait. -/
theorem isWaiting_of_ownedBy {worker : WorkerUuid} (h : r.ownedBy worker = true) :
    r.isWaiting = false := by
  rw [Job.ownedBy, Bool.and_eq_true, beq_iff_eq] at h
  rw [Job.isWaiting, h.1]
  rfl

/-- A table without started jobs. -/
theorem inv_init (now : Time) {s : Store} (hs : ∀ i, s.stateOf i ≠ some .started) :
    Inv { store := s, now := now } where
  clock _ _ h := by cases h
  fresh _ _ := ⟨rfl, rfl⟩
  apart _ _ h := by cases h
  owns _ _ h := by cases h
  unique _ _ _ _ h := by cases h
  locked _ _ _ _ h := by cases h
  exclusive _ _ _ h := by
    obtain ⟨_, _, h, _⟩ := h
    cases h
  periods i r hr hstate := absurd (by rw [Store.stateOf, hr, Option.map_some, hstate]) (hs i)

/-- Time goes on. -/
theorem Inv.tick (h : Inv w) (elapsed : Nat) : Inv { w with now := w.now + elapsed } :=
  { h with
    clock := fun n t ht ↦ by
      have := h.clock n t ht
      exact Int.le_trans this (Int.le_add_of_nonneg_right (Int.natCast_nonneg elapsed)) }

/-- What is locked behind an entry of a transaction. -/
theorem locks_update {v : Option Acquiring} {m : Nat}
    (hl : ({ w with acquiring := Function.update w.acquiring n v } : Fleet).Locks m job) :
    (m = n ∧ ∃ t r, v = some t ∧ t.phase = .locked job r) ∨ m ≠ n ∧ w.Locks m job := by
  obtain ⟨t, r, ht, hp⟩ := hl
  rcases update_eq_some ht with ⟨hm, hv⟩ | ⟨hm, ht⟩
  · exact .inl ⟨hm, t, r, hv, hp⟩
  · exact .inr ⟨hm, t, r, ht, hp⟩

/-- A transaction goes on: what it locks is free, in its latest version. -/
theorem Inv.acquiring (h : Inv w) (hclock : t.now ≤ w.now) (hn : n < w.nextTransaction)
    (hapart : w.attempts n = none)
    (hlock : ∀ job r, t.phase = .locked job r → w.store.get? job = some r ∧
      r.isWaiting = false ∧ (∀ m a, w.attempts m = some a → a.job ≠ job) ∧
      ∀ m, ¬ w.Locks m job) :
    Inv { w with acquiring := Function.update w.acquiring n (some t) } where
  clock m t' ht' := by
    rcases update_eq_some ht' with ⟨_, hv⟩ | ⟨_, ht'⟩
    · cases hv
      exact hclock
    · exact h.clock m t' ht'
  fresh m hm := by
    refine ⟨?_, (h.fresh m hm).2⟩
    exact (Function.update_of_ne (Nat.ne_of_gt (Nat.lt_of_lt_of_le hn hm)) _ _).trans
      (h.fresh m hm).1
  apart m t' ht' := by
    rcases update_eq_some ht' with ⟨rfl, _⟩ | ⟨_, ht'⟩
    · exact hapart
    · exact h.apart m t' ht'
  owns := h.owns
  unique := h.unique
  locked m t' job r ht' hp := by
    rcases update_eq_some ht' with ⟨_, hv⟩ | ⟨_, ht'⟩
    · cases hv
      obtain ⟨hr, hw, hfree, _⟩ := hlock job r hp
      exact ⟨hr, hw, hfree⟩
    · exact h.locked m t' job r ht' hp
  exclusive m m' job hm hm' := by
    rcases locks_update hm with ⟨hmn, _, r₁, hv, hp⟩ | ⟨_, hm⟩ <;>
      rcases locks_update hm' with ⟨hmn', _, r₂, hv', hp'⟩ | ⟨_, hm'⟩
    · rw [hmn, hmn']
    · cases hv
      exact absurd hm' ((hlock job r₁ hp).2.2.2 m')
    · cases hv'
      exact absurd hm ((hlock job r₂ hp').2.2.2 m)
    · exact h.exclusive m m' job hm hm'
  periods := h.periods

/-- Transaction ids are given out in order. -/
theorem Inv.lt_nextTransaction (h : Inv w) (ht : w.acquiring n = some t) :
    n < w.nextTransaction := by
  refine Nat.lt_of_not_le fun hn ↦ ?_
  rw [(h.fresh n hn).1] at ht
  cases ht

/-- A new transaction has locked nothing. -/
theorem Inv.begin (h : Inv w) (cfg : WorkerConfig) : Inv { w with
    acquiring := Function.update w.acquiring w.nextTransaction (some ⟨cfg, w.now, .begun⟩)
    nextTransaction := w.nextTransaction + 1 } :=
  have hnext : Inv { w with nextTransaction := w.nextTransaction + 1 } :=
    { h with fresh := fun n hn ↦ h.fresh n (Nat.le_of_succ_le hn) }
  hnext.acquiring (Int.le_refl w.now) (Nat.lt_succ_self _) (h.fresh _ (Nat.le_refl _)).2
    fun _ _ hp ↦ by cases hp

/-- A transaction that reads locks nothing. -/
theorem Inv.scanning (h : Inv w) (ht : w.acquiring n = some t) (candidates : List JobId) :
    Inv (w.setPhase n t (.scanning candidates)) :=
  h.acquiring (t := { t with phase := .scanning candidates }) (h.clock n t ht)
    (h.lt_nextTransaction ht) (h.apart n t ht) fun _ _ hp ↦ by cases hp

/-- While all attempts are refreshed, an acquirable job is not being executed. -/
theorem Inv.not_executing (h : Inv w) (href : w.Refreshed) (ht : w.acquiring n = some t)
    (hr : w.store.get? job = some r) (ha : t.cfg.acquirable t.now r = true) {m : Nat}
    (hm : w.attempts m = some a) : a.job ≠ job := by
  rintro rfl
  obtain ⟨q, beat, hq, howned, hbeat⟩ := h.owns m a hm
  obtain rfl : r = q := Option.some.inj (hr.symm.trans hq)
  rw [Job.ownedBy, Bool.and_eq_true, beq_iff_eq] at howned
  rcases WorkerConfig.state_of_acquirable ha with hp | ⟨_, hstale⟩
  · rw [hp] at howned
    cases howned.1
  · -- The transaction compares with its own start, which is not after the refresh check.
    have hclock := h.clock n t ht
    have hrefreshed := Int.sub_le_of_sub_le (href m a hm r beat hr hbeat n t ht)
    rw [WorkerConfig.stale, hbeat, Option.all_some, decide_eq_true_eq] at hstale
    exact absurd hstale (Int.not_lt.mpr (Int.le_trans (Int.sub_le_sub_right hclock _) hrefreshed))

/-- A transaction locks a job. -/
theorem Inv.forUpdate (h : Inv w) (href : w.Refreshed) (ht : w.acquiring n = some t)
    (hfree : ∀ m, ¬ w.Locks m job) (hr : w.store.get? job = some r)
    (ha : t.cfg.acquirable t.now r = true) : Inv (w.setPhase n t (.locked job r)) := by
  refine h.acquiring (t := { t with phase := .locked job r }) (h.clock n t ht)
    (h.lt_nextTransaction ht) (h.apart n t ht) ?_
  intro job' r' hp
  cases hp
  refine ⟨hr, ?_, fun m a hm ↦ h.not_executing href ht hr ha hm, hfree⟩
  rcases WorkerConfig.state_of_acquirable ha with hs | ⟨hs, _⟩ <;> rw [Job.isWaiting, hs] <;> rfl

/-- What is locked behind the end of a transaction. -/
theorem locks_finish {m : Nat} (hl : (w.finish n).Locks m job) : m ≠ n ∧ w.Locks m job := by
  rcases locks_update hl with ⟨_, _, _, hv, _⟩ | hl
  · cases hv
  · exact hl

/-- A transaction that reads locks nothing. -/
theorem locks_reading {candidates : List JobId} {m : Nat}
    (hl : (w.setPhase n t (.scanning candidates)).Locks m job) : w.Locks m job := by
  rcases locks_update hl with ⟨_, _, _, hv, hp⟩ | ⟨_, hl⟩
  · cases hv
    cases hp
  · exact hl

/-- A transaction ends. -/
theorem Inv.finish (h : Inv w) (n : Nat) : Inv (w.finish n) :=
  have hold {m : Nat} {t : Acquiring} (ht : (w.finish n).acquiring m = some t) :
      w.acquiring m = some t := by
    rcases update_eq_some ht with ⟨_, hv⟩ | ⟨_, ht⟩
    · cases hv
    · exact ht
  { clock := fun m t ht ↦ h.clock m t (hold ht)
    fresh := fun m hm ↦ by
      refine ⟨?_, (h.fresh m hm).2⟩
      rw [Option.eq_none_iff_forall_ne_some]
      intro t ht
      have := hold ht
      rw [(h.fresh m hm).1] at this
      cases this
    apart := fun m t ht ↦ h.apart m t (hold ht)
    owns := h.owns
    unique := h.unique
    locked := fun m t job r ht ↦ h.locked m t job r (hold ht)
    exclusive := fun m m' job hm hm' ↦ h.exclusive m m' job (locks_finish hm).2 (locks_finish hm').2
    periods := h.periods }

/-- Heartbeats leave the locks and the claims. -/
theorem Inv.heartbeats (h : Inv w) {p : JobId → Job → Bool} {now : Time}
    {hk : w.store.Keeps p fun _ r ↦ { r with heartbeat := some now }}
    (hp : ∀ i r, w.store.get? i = some r → p i r = true → ∀ n, ¬ w.Locks n i) :
    Inv { w with store := w.store.update p (fun _ r ↦ { r with heartbeat := some now }) hk } :=
  { h with
    owns := fun n a hn ↦ by
      obtain ⟨r, beat, hr, howned, hbeat⟩ := h.owns n a hn
      dsimp only
      rw [Store.get?_update, hr, Option.map_some]
      split
      · exact ⟨_, now, rfl, howned, rfl⟩
      · exact ⟨r, beat, rfl, howned, hbeat⟩
    locked := fun n t job r ht hphase ↦ by
      obtain ⟨hr, hrest⟩ := h.locked n t job r ht hphase
      refine ⟨?_, hrest⟩
      dsimp only
      rw [Store.get?_update, hr, Option.map_some, if_neg]
      exact fun hb ↦ hp job r hr hb n ⟨t, r, ht, hphase⟩
    periods := fun job r' hr' hs ↦ by
      dsimp only at hr'
      rw [Store.get?_update] at hr'
      obtain ⟨r, hr, rfl⟩ := Option.map_eq_some_iff.mp hr'
      refine h.periods job r hr ?_
      split at hs <;> exact hs }

/-- A transaction that starts nothing keeps the claims that do not end. -/
theorem Inv.leavesBusy (h : Inv w) {ends : JobId → Prop} (hl : LeavesBusy w.store s' ends)
    {attempts : Nat → Option Attempt}
    (hattempts : ∀ n a, attempts n = some a ↔ w.attempts n = some a ∧ ¬ ends a.job)
    (hlocks : ∀ n job, w.Locks n job → ¬ ends job) :
    Inv { w with store := s', attempts := attempts } where
  clock := h.clock
  fresh n hn := by
    refine ⟨(h.fresh n hn).1, ?_⟩
    rw [Option.eq_none_iff_forall_ne_some]
    intro a ha
    have := ((hattempts n a).mp ha).1
    rw [(h.fresh n hn).2] at this
    cases this
  apart n t ht := by
    rw [Option.eq_none_iff_forall_ne_some]
    intro a ha
    have := ((hattempts n a).mp ha).1
    rw [h.apart n t ht] at this
    cases this
  owns n a ha := by
    obtain ⟨ha, hends⟩ := (hattempts n a).mp ha
    obtain ⟨r, beat, hr, howned, hbeat⟩ := h.owns n a ha
    exact ⟨r, beat, hl.row a.job r hends hr (isWaiting_of_ownedBy howned), howned, hbeat⟩
  unique m n a b ha hb :=
    h.unique m n a b ((hattempts m a).mp ha).1 ((hattempts n b).mp hb).1
  locked n t job r ht hp := by
    obtain ⟨hr, hw, hfree⟩ := h.locked n t job r ht hp
    refine ⟨hl.row job r (hlocks n job ⟨t, r, ht, hp⟩) hr hw, hw, fun m a ha ↦ ?_⟩
    exact hfree m a ((hattempts m a).mp ha).1
  exclusive := h.exclusive
  periods job r hr hs := by
    obtain ⟨hends, hr⟩ := hl.started hr hs
    obtain ⟨n, rest, hret, hrest, hn⟩ := h.periods job r hr hs
    refine ⟨n, rest, hret, hrest, hn.imp_right ?_⟩
    rintro ⟨a, ha, rfl⟩
    exact ⟨a, (hattempts n a).mpr ⟨ha, hends⟩, rfl⟩

/-- An attempt records its outcome. -/
theorem Inv.recorded (h : Inv w) (ha : w.attempts n = some a)
    (hl : LeavesBusy w.store s' (· = a.job)) : Inv (w.recorded n s') := by
  refine h.leavesBusy hl (fun m b ↦ ?_) fun m job hm he ↦ ?_
  · rw [Function.update_apply]
    split
    · next hm =>
      rw [hm, ha]
      simp only [reduceCtorEq, Option.some.injEq, false_iff, not_and, not_not]
      rintro rfl
      rfl
    · next hm =>
      refine ⟨fun hb ↦ ⟨hb, fun he ↦ hm (h.unique m n b a hb ha he)⟩, And.left⟩
  · obtain ⟨t, r, ht, hp⟩ := hm
    exact (h.locked m t job r ht hp).2.2 n a ha he.symm

/-- An attempt ends without an outcome. -/
theorem Inv.crash (h : Inv w) :
    Inv { w.recorded n w.store with crashed := n :: w.crashed } :=
  have hold {m : Nat} {b : Attempt} (hb : (w.recorded n w.store).attempts m = some b) :
      m ≠ n ∧ w.attempts m = some b := by
    rcases update_eq_some hb with ⟨_, hv⟩ | hb
    · cases hv
    · exact hb
  have hnone {m : Nat} (hm : w.attempts m = none) :
      (w.recorded n w.store).attempts m = none := by
    rw [Option.eq_none_iff_forall_ne_some]
    intro b hb
    have := (hold hb).2
    rw [hm] at this
    cases this
  { clock := h.clock
    fresh := fun m hm ↦ ⟨(h.fresh m hm).1, hnone (h.fresh m hm).2⟩
    apart := fun m t ht ↦ hnone (h.apart m t ht)
    owns := fun m b hb ↦ h.owns m b (hold hb).2
    unique := fun m m' b b' hb hb' ↦ h.unique m m' b b' (hold hb).2 (hold hb').2
    locked := fun m t job r ht hp ↦ by
      obtain ⟨hr, hw, hfree⟩ := h.locked m t job r ht hp
      exact ⟨hr, hw, fun m' b hb ↦ hfree m' b (hold hb).2⟩
    exclusive := h.exclusive
    periods := fun job r hr hs ↦ by
      obtain ⟨m, rest, hret, hrest, hm⟩ := h.periods job r hr hs
      refine ⟨m, rest, hret, fun m' hm' ↦ List.mem_cons_of_mem n (hrest m' hm'), ?_⟩
      by_cases hmn : m = n
      · exact .inl (hmn ▸ List.mem_cons_self)
      · refine hm.imp (List.mem_cons_of_mem n) ?_
        rintro ⟨b, hb, hj⟩
        exact ⟨b, (Function.update_of_ne hmn _ _).trans hb, hj⟩ }

/-- A transaction returns its locked job, which is started under its worker's id. -/
theorem Inv.returned (h : Inv w) (ht : w.acquiring n = some t) (hp : t.phase = .locked job r)
    (r' : Job) {beat : Time}
    (hs' : ∀ i, s'.get? i = if i = job then some r' else w.store.get? i)
    (howned : r'.ownedBy t.cfg.workerUuid = true) (hbeat : r'.heartbeat = some beat) :
    Inv (w.committed n t.cfg r (s', some job)) := by
  obtain ⟨hr, -, hfree⟩ := h.locked n t job r ht hp
  have hfin := h.finish n
  have hself : s'.get? job = some r' := by rw [hs', if_pos rfl]
  have hother {i : JobId} (hi : i ≠ job) : s'.get? i = w.store.get? i := by rw [hs', if_neg hi]
  constructor
  case clock => exact hfin.clock
  case fresh =>
    intro m hm
    refine ⟨(hfin.fresh m hm).1, ?_⟩
    exact (Function.update_of_ne (Nat.ne_of_gt (Nat.lt_of_lt_of_le (h.lt_nextTransaction ht) hm))
      _ _).trans (h.fresh m hm).2
  case apart =>
    intro m t' ht'
    rcases update_eq_some ht' with ⟨_, hv⟩ | ⟨hm, ht'⟩
    · cases hv
    · exact (Function.update_of_ne hm _ _).trans (h.apart m t' ht')
  case owns =>
    intro m a ha
    rcases update_eq_some ha with ⟨_, hv⟩ | ⟨_, ha⟩
    · cases hv
      exact ⟨r', beat, hself, howned, hbeat⟩
    · obtain ⟨q, beat', hq, hrest⟩ := h.owns m a ha
      exact ⟨q, beat', (hother (hfree m a ha)).trans hq, hrest⟩
  case unique =>
    intro m m' a b ha hb hab
    rcases update_eq_some ha with ⟨hm, hv⟩ | ⟨_, ha⟩ <;>
      rcases update_eq_some hb with ⟨hm', hv'⟩ | ⟨_, hb⟩
    · rw [hm, hm']
    · cases hv
      exact absurd hab.symm (hfree m' b hb)
    · cases hv'
      exact absurd hab (hfree m a ha)
    · exact h.unique m m' a b ha hb hab
  case locked =>
    intro m t' i q ht' hp'
    obtain ⟨hmn, _⟩ := locks_finish (w := w) (n := n) ⟨t', q, ht', hp'⟩
    obtain ⟨hq, hw, hfree'⟩ := hfin.locked m t' i q ht' hp'
    -- A second transaction would exclude this one.
    have hi : i ≠ job := by
      rintro rfl
      obtain ⟨_, hl⟩ := locks_finish (w := w) (n := n) ⟨t', q, ht', hp'⟩
      exact hmn (h.exclusive m n i hl ⟨t, r, ht, hp⟩)
    refine ⟨(hother hi).trans hq, hw, fun m' a ha ↦ ?_⟩
    rcases update_eq_some ha with ⟨_, hv⟩ | ⟨_, ha⟩
    · cases hv
      exact hi.symm
    · exact hfree' m' a ha
  case exclusive => exact hfin.exclusive
  case periods =>
    intro i q hq hs
    by_cases hi : i = job
    · subst hi
      refine ⟨n, _, Function.update_self _ _ _, ?_, .inr ⟨_, Function.update_self _ _ _, rfl⟩⟩
      intro m hm
      split at hm
      · next hstate =>
        -- The row was started: none of its attempts executes it any more.
        obtain ⟨m₀, rest, hret, hrest, hm₀⟩ := h.periods i r hr hstate
        rw [hret, List.mem_cons] at hm
        rcases hm with rfl | hm
        · refine hm₀.resolve_right ?_
          rintro ⟨a, ha, hj⟩
          exact hfree m a ha hj
        · exact hrest m hm
      · cases hm
    · obtain ⟨m, rest, hret, hrest, hm⟩ := h.periods i q ((hother hi).symm.trans hq) hs
      refine ⟨m, rest, (Function.update_of_ne hi _ _).trans hret, hrest, hm.imp_right ?_⟩
      rintro ⟨a, ha, hj⟩
      refine ⟨a, (Function.update_of_ne ?_ _ _).trans ha, hj⟩
      rintro rfl
      rw [h.apart m t ht] at ha
      cases ha

/-- A transaction commits. -/
theorem Inv.commit (h : Inv w) (ht : w.acquiring n = some t) (hp : t.phase = .locked job r)
    (hr : w.store.get? job = some r) (ha : r.state.isActive = true) :
    Inv (w.committed n t.cfg r (acquireRow t.cfg t.now w.store job r hr ha)) := by
  unfold acquireRow
  split
  · exact h.returned ht hp (t.cfg.pickupRow t.now r)
      (fun i ↦ get?_updateLocked hr ha _ rfl) (by simp [Job.ownedBy, WorkerConfig.pickupRow]) rfl
  · split
    · -- The job fails for good: nothing starts, and no other transaction had locked it.
      refine (h.finish n).leavesBusy (leavesBusy_workerDied (r := r)
        (fun i hi ↦ (get?_updateLocked hr ha _ rfl).trans (if_neg hi))
        ((get?_updateLocked hr ha _ rfl).trans (if_pos rfl)))
        (fun m b ↦ ⟨fun hb ↦ ⟨hb, ?_⟩, And.left⟩) fun m i hm hi ↦ ?_
      · exact (h.locked n t job r ht hp).2.2 m b hb
      · obtain ⟨hmn, hm⟩ := locks_finish hm
        exact hmn (h.exclusive m n job (hi ▸ hm) ⟨t, r, ht, hp⟩)
    · exact h.returned ht hp (t.cfg.reclaimRow t.now r)
        (fun i ↦ get?_updateLocked hr ha _ rfl)
        (by simp [Job.ownedBy, WorkerConfig.reclaimRow, WorkerConfig.pickupRow]) rfl

/-- Every step of a refreshed fleet keeps the invariant. -/
theorem Inv.step {w' : Fleet} (h : Inv w) (href : w.Refreshed) (hstep : w.Step w') : Inv w' := by
  cases hstep with
  | tick elapsed => exact h.tick elapsed
  | enqueue he =>
    refine h.leavesBusy (leavesBusy_enqueue he) (fun n a ↦ ?_) fun _ _ _ ↦ id
    exact ⟨fun ha ↦ ⟨ha, id⟩, And.left⟩
  | begin cfg => exact h.begin cfg
  | select limits ht hp => exact h.scanning ht _
  | skipLocked ht hp => exact h.scanning ht _
  | forUpdate ht hp hfree hr ha => exact h.forUpdate href ht hfree hr ha
  | noJob ht hp => exact h.finish _
  | commit hr ha ht hp => exact h.commit ht hp hr ha
  | @heartbeatJob n a now ha =>
    refine h.heartbeats fun i r hr hb m ↦ ?_
    rintro ⟨t, r', ht, hp⟩
    rw [Bool.and_eq_true, beq_iff_eq] at hb
    exact (h.locked m t i r' ht hp).2.2 n a ha hb.1.symm
  | updateHeartbeats hfree =>
    refine h.heartbeats fun i r hr hb ↦ ?_
    rw [Bool.and_eq_true, beq_iff_eq, List.contains_iff_mem] at hb
    exact hfree i hb.1 r hr hb.2
  | finalizeJob ha hs => exact h.recorded ha (leavesBusy_finalizeJob hs)
  | handleException ha hs =>
    obtain ⟨r, _, hr, _⟩ := h.owns _ _ ha
    exact h.recorded ha (leavesBusy_handleException hs hr)
  | crash ha => exact h.crash

/-- The invariant holds in every reachable fleet. -/
theorem Reachable.inv (h : Reachable w) : Inv w := by
  induction h with
  | init now hs => exact inv_init now hs
  | step _ href hstep ih => exact ih.step href hstep

end Inv

/-! ### An undisturbed transaction -/

section Undisturbed

open Relation

variable {w : Fleet} {n : Nat} {t : Acquiring}

/-- The last phase counts. -/
theorem setPhase_setPhase (p q : AcquirePhase) :
    (w.setPhase n t p).setPhase n { t with phase := p } q = w.setPhase n t q := by
  rw [setPhase, setPhase, setPhase, Function.update_idem]

/-- The statement goes past the candidates that others have locked. -/
theorem skips (skipped rest : List JobId) :
    ReflTransGen Step (w.setPhase n t (.scanning (skipped ++ rest)))
      (w.setPhase n t (.scanning rest)) := by
  induction skipped with
  | nil => exact .refl
  | cons job skipped ih =>
    refine .head (.skipLocked (Function.update_self _ _ _) rfl) ?_
    rw [setPhase_setPhase]
    exact ih

/-- What a commit leaves behind. -/
theorem committed_eq {cfg : WorkerConfig} {r : Job} {out : Store × Option JobId}
    (hn : w.attempts n = none) : (w.committed n cfg r out).store = out.1 ∧
      (w.committed n cfg r out).attempts n = out.2.map fun job ↦ ⟨n, cfg, job⟩ := by
  obtain ⟨s', _ | job⟩ := out
  · exact ⟨rfl, hn⟩
  · exact ⟨rfl, Function.update_self _ _ _⟩

/-- Undisturbed, the statements of a transaction make up `acquire_job_lock`. -/
theorem acquireJobLock_steps (limits : QueueLimits) {locked : JobId → Bool}
    (ht : w.acquiring n = some t) (hp : t.phase = .begun) (hn : w.attempts n = none)
    (hfree : ∀ job, locked job = false → ∀ m, ¬ w.Locks m job) :
    ∃ w', ReflTransGen Step w w' ∧
      w'.store = (acquireJobLock t.cfg limits locked t.now w.store).1 ∧
      w'.attempts n = (acquireJobLock t.cfg limits locked t.now w.store).2.map
        fun job ↦ ⟨n, t.cfg, job⟩ := by
  have hselect := Step.select limits ht hp
  have hself {p : AcquirePhase} : (w.setPhase n t p).acquiring n = some { t with phase := p } :=
    Function.update_self _ _ _
  cases hf : (t.cfg.candidates limits t.now w.store).find? fun i ↦ !locked i with
  | none =>
    have hskips := skips (w := w) (n := n) (t := t) (t.cfg.candidates limits t.now w.store) []
    rw [List.append_nil] at hskips
    refine ⟨_, (ReflTransGen.head hselect hskips).tail (.noJob hself rfl), ?_⟩
    unfold acquireJobLock
    rw [hf]
    exact ⟨rfl, hn⟩
  | some job =>
    obtain ⟨hlocked, skipped, rest, hsplit, _⟩ := List.find?_eq_some_iff_append.mp hf
    have hmem := List.mem_of_find?_eq_some hf
    obtain ⟨r, hr, _⟩ := Relational.Table.mem_selectBy.mp hmem
    have ha := acquirable_of_mem_candidates hmem hr
    rw [hsplit] at hselect
    -- The candidates before the free one are skipped; its row has not changed since.
    have hlock : (w.setPhase n t (.scanning (job :: rest))).Step _ :=
      .forUpdate hself rfl (fun m hm ↦ hfree job (by simpa using hlocked) m (locks_reading hm))
        hr ha
    rw [setPhase_setPhase] at hlock
    have hcommit : (w.setPhase n t (.locked job r)).Step _ :=
      .commit (w := w.setPhase n t (.locked job r)) hr
        (WorkerConfig.isActive_of_acquirable ha) hself rfl
    refine ⟨_, (((ReflTransGen.head hselect (skips skipped _)).tail hlock).tail hcommit), ?_⟩
    rw [acquireJobLock_of_find hf hr]
    exact committed_eq hn

end Undisturbed

/-! ### Mutual exclusion -/

/-- Over refreshed attempts no job is executed twice at a time; and where no attempt has
ended without an outcome, every started job is executed by the one attempt to which it was
returned in its started period, under the id of that attempt's worker. -/
theorem mutualExclusion {w : Fleet} (h : Reachable w) :
    (∀ m n a b, w.attempts m = some a → w.attempts n = some b → a.job = b.job → m = n) ∧
      (w.crashed = [] → ∀ job r, w.store.get? job = some r → r.state = .started →
        ∃ n a, w.returned job = [n] ∧ w.attempts n = some a ∧ a.job = job ∧
          r.workerId = some a.cfg.workerUuid) := by
  refine ⟨h.inv.unique, fun hc job r hr hs ↦ ?_⟩
  obtain ⟨n, rest, hret, hrest, hn⟩ := h.inv.periods job r hr hs
  rw [hc] at hrest hn
  obtain rfl : rest = [] := List.eq_nil_iff_forall_not_mem.mpr fun m hm ↦ by cases hrest m hm
  obtain ⟨a, ha, rfl⟩ := hn.resolve_left List.not_mem_nil
  obtain ⟨q, _, hq, howned, _⟩ := h.inv.owns n a ha
  obtain rfl : r = q := Option.some.inj (hr.symm.trans hq)
  rw [Job.ownedBy, Bool.and_eq_true, beq_iff_eq] at howned
  exact ⟨n, a, hret, ha, rfl, beq_iff_eq.mp howned.2⟩

/-- A job that can be acquired. -/
def pendingJob : Job := { payload := .ping }

/-- A fleet without attempts is refreshed. -/
theorem refreshed_of_attempts {w : Fleet} (h : ∀ n, w.attempts n = none) : w.Refreshed := by
  intro n a ha
  rw [h n] at ha
  cases ha

/-- Two workers select the pending job on equal snapshots; the second skips it because the
first has locked it. -/
theorem exists_contended : ∃ w : Fleet, Reachable w ∧ w.attempts = (fun _ ↦ none) ∧
    w.crashed = [] ∧ w.store.get? 1 = some pendingJob ∧
    w.acquiring 0 = some ⟨{ workerUuid := 0 }, 0, .locked 1 pendingJob⟩ ∧
    w.acquiring 1 = some ⟨{ workerUuid := 1 }, 0, .scanning []⟩ := by
  let s : Store := .ofRows [pendingJob]
  let cfg (worker : WorkerUuid) : WorkerConfig := { workerUuid := worker }
  have hrow : s.get? 1 = some pendingJob := by decide +kernel
  have hidle (i : JobId) : s.stateOf i ≠ some .started := by
    intro hi
    obtain ⟨r, hr, hs⟩ := Option.map_eq_some_iff.mp hi
    have hnone : s.jobs.select (fun _ r ↦ r.state == .started) = [] := by decide +kernel
    have hmem : i ∈ s.jobs.select fun _ r ↦ r.state == .started :=
      Relational.Table.mem_select.mpr ⟨r, hr, beq_iff_eq.mpr hs⟩
    rw [hnone] at hmem
    cases hmem
  have hcandidates (worker : WorkerUuid) :
      (cfg worker).candidates (fun _ ↦ none) 0 s = [1] :=
    have hzero : (cfg 0).candidates (fun _ ↦ none) 0 s = [1] := by decide +kernel
    hzero
  -- Both transactions begin and select before the first one locks.
  let w₀ : Fleet := { store := s, now := 0 }
  have h₂ := ((Reachable.init 0 hidle).step (refreshed_of_attempts fun _ ↦ rfl)
    (.begin (cfg 0))).step (refreshed_of_attempts fun _ ↦ rfl) (.begin (cfg 1))
  have h₄ := (h₂.step (refreshed_of_attempts fun _ ↦ rfl)
    (.select (n := 0) (fun _ ↦ none) rfl rfl)).step (refreshed_of_attempts fun _ ↦ rfl)
    (.select (n := 1) (fun _ ↦ none) rfl rfl)
  have h₅ := h₄.step (refreshed_of_attempts fun _ ↦ rfl) (.forUpdate (n := 0) rfl
    (congrArg AcquirePhase.scanning (hcandidates 0)) ?_ hrow (by decide))
  · have h₆ := h₅.step (refreshed_of_attempts fun _ ↦ rfl)
      (.skipLocked (n := 1) rfl (congrArg AcquirePhase.scanning (hcandidates 1)))
    exact ⟨_, h₆, rfl, rfl, hrow, rfl, rfl⟩
  · intro m hl
    obtain ⟨t, r, ht, hp⟩ := locks_reading (locks_reading hl)
    rcases update_eq_some ht with ⟨_, hv⟩ | ⟨_, ht⟩
    · cases hv
      cases hp
    · rcases update_eq_some ht with ⟨_, hv⟩ | ⟨_, ht⟩
      · cases hv
        cases hp
      · cases ht

/-- The job is returned to the first worker only. -/
theorem mutualExclusion_contended : ∃ (w w' : Fleet) (n : Nat) (a : Attempt), w.Step w' ∧
    w'.returned 1 = [n] ∧ w'.attempts n = some a ∧ a.job = 1 ∧
    ∀ m b, w'.attempts m = some b → b.job = 1 → m = n := by
  obtain ⟨w, hw, hattempts, hcrashed, hrow, hlocked, -⟩ := exists_contended
  have hstep : w.Step _ := .commit (n := 0) hrow rfl hlocked rfl
  have hw' := hw.step (refreshed_of_attempts fun n ↦ by rw [hattempts]) hstep
  obtain ⟨hunique, hreturned⟩ := mutualExclusion hw'
  obtain ⟨n, a, hn, ha, hj, -⟩ := hreturned hcrashed 1 _
    ((get?_updateLocked hrow rfl _ rfl).trans (if_pos rfl)) rfl
  exact ⟨w, _, n, a, hstep, hn, ha, hj, fun m b hb hbj ↦
    hunique m n b a hb ha (hbj.trans hj.symm)⟩

end Fleet

end JobWorker
