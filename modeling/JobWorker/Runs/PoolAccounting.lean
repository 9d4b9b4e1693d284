import JobWorker.Process

/-!
# Active jobs and the tasks of the pool

`active_job_ids` is a set of jobs while the pool holds tasks
(`job_worker/cli/worker.py:450–595`). They agree as long as the worker does not acquire a
job that one of its own threads still executes.
-/

namespace JobWorker

open Transition QueueWorker

section Loop

variable {cfg : MainLoopConfig} {s s' : QueueWorker} {a : LoopAction}

/-- Every active job is executed by one thread, and there is room where the loop acquires. -/
structure Balanced (cfg : MainLoopConfig) (s : QueueWorker) : Prop where
  nodup : s.executing.Nodup
  mem : ∀ job, job ∈ s.executing ↔ job ∈ s.activeJobIds
  queued : s.queued = []
  room : s.activeJobIds.card ≤ cfg.concurrency
  free : s.pc = .gateBeforeAcquire ∨ s.pc = .acquireJob →
    s.activeJobIds.card < cfg.concurrency

/-- The pool executes as many tasks as there are active jobs. -/
theorem Balanced.length (h : Balanced cfg s) : s.executing.length = s.activeJobIds.card := by
  rw [← List.toFinset_card_of_nodup h.nodup]
  congr 1
  ext job
  rw [List.mem_toFinset]
  exact h.mem job

/-- A task that is submitted while there is room is executed at once. -/
theorem Balanced.submit {job : JobId} (h : Balanced cfg s) (hpc : s.pc = .acquireJob) :
    (s.submit cfg job).executing = s.executing ++ [job] ∧ (s.submit cfg job).queued = [] := by
  have hlt : s.executing.length < cfg.concurrency := by
    rw [h.length]
    exact h.free (.inr hpc)
  simp [QueueWorker.submit, hlt, h.queued]

/-- A step keeps the balance, unless it acquires a job that is still active. -/
theorem balanced_next (h : s.next cfg a = some s') (hb : Balanced cfg s)
    (hfresh : ∀ job, a = .acquireJob (.ok (some job)) → job ∉ s.activeJobIds) :
    Balanced cfg s' := by
  cases effect_of_next h with
  | tick | stop => exact ⟨hb.nodup, hb.mem, hb.queued, hb.room, hb.free⟩
  | @finish job _ =>
    have hlt : (s.activeJobIds.erase job).card ≤ s.activeJobIds.card := Finset.card_erase_le
    refine ⟨?_, fun i ↦ ?_, ?_, hlt.trans hb.room, fun hpc ↦ hlt.trans_lt (hb.free hpc)⟩
    · simpa [QueueWorker.finish, hb.queued] using hb.nodup.erase job
    · simp [QueueWorker.finish, hb.queued, hb.nodup.mem_erase_iff, hb.mem]
    · simp [QueueWorker.finish, hb.queued]
  | @acquired job hpc =>
    have hjob := hfresh job rfl
    obtain ⟨hexec, hqueued⟩ := hb.submit hpc
    refine ⟨?_, fun i ↦ ?_, hqueued, ?_, nofun⟩
    · show (s.submit cfg job).executing.Nodup
      rw [hexec, List.nodup_append]
      simpa [hb.nodup] using fun i hi (heq : i = job) ↦ hjob (heq ▸ (hb.mem i).mp hi)
    · show i ∈ (s.submit cfg job).executing ↔ i ∈ insert job s.activeJobIds
      rw [hexec]
      simp [hb.mem, or_comm]
    · show (insert job s.activeJobIds).card ≤ cfg.concurrency
      rw [Finset.card_insert_of_notMem hjob]
      exact hb.free (.inr hpc)
  | proceed _ hlt => exact ⟨hb.nodup, hb.mem, hb.queued, hb.room, fun _ ↦ hlt⟩
  | openBeforeAcquire hpc =>
    exact ⟨hb.nodup, hb.mem, hb.queued, hb.room, fun _ ↦ hb.free (.inl hpc)⟩
  | shutdown | overslept => exact ⟨hb.nodup, hb.mem, rfl, hb.room, nofun⟩
  | _ => exact ⟨hb.nodup, hb.mem, hb.queued, hb.room, nofun⟩

/-- A task is executed until it ends. -/
theorem mem_executing_next {job : JobId} (h : s.next cfg a = some s') (hb : Balanced cfg s)
    (hj : job ∈ s.executing) (hf : a ≠ .finish job) : job ∈ s'.executing := by
  cases effect_of_next h with
  | @finish other _ =>
    have hne : job ≠ other := fun heq ↦ hf (heq ▸ rfl)
    simpa [QueueWorker.finish, hb.queued] using (List.mem_erase_of_ne hne).mpr hj
  | acquired hpc =>
    show job ∈ (s.submit cfg _).executing
    rw [(hb.submit hpc).1]
    exact List.mem_append_left _ hj
  | _ => exact hj

/-- A job is executed as soon as it is acquired. -/
theorem mem_executing_acquired {job : JobId}
    (h : s.next cfg (.acquireJob (.ok (some job))) = some s') (hb : Balanced cfg s) :
    job ∈ s'.executing := by
  cases effect_of_next h with
  | acquired hpc =>
    show job ∈ (s.submit cfg _).executing
    rw [(hb.submit hpc).1]
    exact List.mem_append_right _ List.mem_cons_self
  | notAcquired _ hn => rcases hn with hn | hn <;> cases hn
  | backOff _ ha | overslept _ ha => cases LoopAction.answers_of_failsDatabase ha
  | shutdown _ ha => cases ha.answers

/-- An acquired job adds a task, also where it is active already. -/
theorem tasks_acquired {job : JobId}
    (h : s.next cfg (.acquireJob (.ok (some job))) = some s') :
    s'.activeJobIds = insert job s.activeJobIds ∧
      s'.executing.length + s'.queued.length = s.executing.length + s.queued.length + 1 := by
  cases effect_of_next h with
  | acquired _ =>
    refine ⟨rfl, ?_⟩
    show (s.submit cfg job).executing.length + (s.submit cfg job).queued.length = _
    simp only [QueueWorker.submit]
    split
    · rw [List.length_append, List.length_singleton]
      omega
    · rw [List.length_append, List.length_singleton]
      omega
  | notAcquired _ hn => rcases hn with hn | hn <;> cases hn
  | backOff _ ha | overslept _ ha => cases LoopAction.answers_of_failsDatabase ha
  | shutdown _ ha => cases ha.answers

/-- A worker starts balanced. -/
theorem balanced_starts (h : s.Starts) : Balanced cfg s := by
  obtain ⟨now, stop, rfl⟩ := h
  unfold QueueWorker.run
  split <;> exact ⟨.nil, fun _ ↦ by simp [goto, poolShutdown, create], rfl, Nat.zero_le _, nofun⟩

end Loop

namespace Process

variable {cfg : MainLoopConfig} {p p' : Process} {m : Move} {past : List (Process × Move)}

/-- As many unfinished tasks as active jobs, at most `concurrency`, and every attempt of the
worker is executed by a thread of the pool. -/
structure Accounted (cfg : MainLoopConfig) (p : Process) : Prop where
  tasks : p.loop.executing.length + p.loop.queued.length = p.loop.activeJobIds.card
  bounded : p.loop.executing.length + p.loop.queued.length ≤ cfg.concurrency
  executed : ∀ a ∈ p.world.attempts, Own cfg a → a.job ∈ p.loop.executing
  noneQueued : p.loop.queued = []

/-- The job of the move, if it acquires one, is not active. -/
def AcquiresAnew (cfg : MainLoopConfig) (p : Process) (m : Move) : Prop :=
  ∀ job, p.acquires cfg m = some job → job ∉ p.loop.activeJobIds

/-- The loop is balanced, and each of its threads executes one attempt. -/
structure Held (cfg : MainLoopConfig) (p : Process) : Prop where
  balanced : Balanced cfg p.loop
  executed : ∀ a ∈ p.world.attempts, Own cfg a → a.job ∈ p.loop.executing
  distinct : ∀ a ∈ p.world.attempts, ∀ b ∈ p.world.attempts, Own cfg a → Own cfg b →
    a.job = b.job → a.id = b.id

/-- A balanced pool is accounted for. -/
theorem Held.accounted (h : Held cfg p) : Accounted cfg p := by
  have hq := h.balanced.queued
  have hl := h.balanced.length
  refine ⟨?_, ?_, h.executed, hq⟩
  · simp [hq, hl]
  · simpa [hq, hl] using h.balanced.room

/-- The loop stays balanced over a move that acquires anew. -/
theorem Step.balanced (h : p.Step cfg m p') (hb : Balanced cfg p.loop)
    (hm : AcquiresAnew cfg p m) : Balanced cfg p'.loop := by
  obtain ⟨hl, _⟩ | ⟨a, ha, hl⟩ := h.loop_cases
  · rwa [hl]
  · apply balanced_next hl hb
    rintro job rfl
    cases m with
    | acquireJob limits locked => exact hm job (by simpa [loopAction] using ha)
    | loop b =>
      cases ha
      simpa [Process.allowed, LoopAction.silent] using h.allowed
    | _ => simp [loopAction] at ha

/-- Every attempt keeps its thread and its job to itself over a move that acquires anew. -/
theorem Step.held (h : p.Step cfg m p') (hh : Held cfg p) (hm : AcquiresAnew cfg p m) :
    Held cfg p' := by
  have hb := hh.balanced
  have hnew (job : JobId) (hj : p.acquires cfg m = some job) (a : Attempt)
      (ha : a ∈ p.world.attempts) (ho : Own cfg a) : a.job ≠ job := by
    rintro rfl
    exact hm a.job hj ((hb.mem _).mp (hh.executed a ha ho))
  refine ⟨h.balanced hb hm, fun a ha ho ↦ ?_, fun a ha b hb' hoa hob hab ↦ ?_⟩
  · rcases h.own_attempt ha ho with ⟨ha, hends⟩ | ⟨job, hj, rfl⟩
    · have hexec := hh.executed a ha ho
      obtain ⟨hl, _⟩ | ⟨c, hc, hl⟩ := h.loop_cases
      · rwa [hl]
      · apply mem_executing_next hl hb hexec
        rintro rfl
        obtain ⟨e, b, hm, he, hb', hob, hjob⟩ := h.finish_cases hc
        exact hends e b hm he (hh.distinct a ha b hb' ho hob hjob.symm)
    · cases m with
      | acquireJob limits locked =>
        have hl := h.loop
        rw [loopAction, hj] at hl
        exact mem_executing_acquired hl hb
      | _ => cases hj
  · rcases h.own_attempt ha hoa with ⟨ha, _⟩ | ⟨job, hj, rfl⟩
    · rcases h.own_attempt hb' hob with ⟨hb', _⟩ | ⟨job, hj, rfl⟩
      · exact hh.distinct a ha b hb' hoa hob hab
      · exact absurd hab (hnew job hj a ha hoa)
    · rcases h.own_attempt hb' hob with ⟨hb', _⟩ | ⟨job', hj', rfl⟩
      · exact absurd hab.symm (hnew job hj b hb' hob)
      · rfl

/-- A move that acquires an active job leaves more tasks than active jobs. -/
theorem Step.not_accounted {job : JobId} (h : p.Step cfg m p') (hp : Accounted cfg p)
    (hj : p.acquires cfg m = some job) (hmem : job ∈ p.loop.activeJobIds) :
    ¬ Accounted cfg p' := by
  cases m with
  | acquireJob limits locked =>
    have hl := h.loop
    rw [loopAction, hj] at hl
    obtain ⟨hactive, htasks⟩ := tasks_acquired hl
    intro hp'
    have ht := hp'.tasks
    rw [hactive, Finset.insert_eq_of_mem hmem, htasks, hp.tasks] at ht
    omega
  | _ => cases hj

instance decidableAcquiresAnew : Decidable (AcquiresAnew cfg p m) :=
  inferInstanceAs (Decidable (∀ job ∈ p.acquires cfg m, job ∉ p.loop.activeJobIds))

/-- Over a run of the process, every state is accounted for exactly when no move acquires a
job that is still active. -/
theorem accounted_iff_acquiresAnew (h : Run cfg past p) :
    (∀ u ∈ states past p, Accounted cfg u) ↔ Guarded (AcquiresAnew cfg) past := by
  constructor
  · rintro hall ⟨u, m⟩ hm job hj hmem
    obtain ⟨v, hv, hs⟩ := h.after hm
    exact hs.not_accounted (hall u (mem_states_of_mem hm)) hj hmem (hall v hv)
  · intro hg u hu
    refine (h.invariant_states hg (P := Held cfg) ?_ ?_ u hu).accounted
    · rintro u ⟨hl, hw, _⟩
      have hnone : u.world.attempts = [] := by rw [hw]; rfl
      exact ⟨balanced_starts hl, by simp [hnone], by simp [hnone]⟩
    · exact fun u m u' hu hm hs ↦ hs.held hu hm

/-- A process that takes a job with a timeout of a minute. -/
def takesJob : List Move :=
  [.database (.enqueue {}
      { modelName := "res.partner", methodName := "ping", timeout := some 60 }),
    .loop (.listen (.ok ())), .loop (.gate (.ok true)), .loop .checkRegistry, .loop .read,
    .loop (.gate (.ok true)), .acquire, .loop .read, .loop (.gate (.ok true)), .acquire,
    .loop .read]

/-- The job overruns its timeout while the loop waits for a slot, and the worker reclaims it
from itself; a second job then finds both threads busy. -/
def reclaimsFromItself : List Move :=
  takesJob ++ [.tick 60000000, .database (.heartbeatJob ⟨1, { workerUuid := 0 }, 1⟩),
    .fire ⟨1, { workerUuid := 0 }, 1⟩,
    .database (.handleTimeout ⟨1, { workerUuid := 0 }, 1⟩ 60), .tick 61000000, .loop .slept,
    .loop .read, .loop (.gate (.ok true)), .acquire,
    .database (.enqueue {}
      { modelName := "res.partner", methodName := "pong", channel := some "other" }),
    .loop .read, .loop (.gate (.ok true)), .acquire]

/-- The pool of a worker with one running job is accounted for. -/
theorem accounted_iff_acquiresAnew_takesJob : ∃ (past : List (Process × Move)) (p : Process),
    Run { workerUuid := 0 } past p ∧ p.loop.activeJobIds = {1} ∧
      ∀ u ∈ states past p, Accounted { workerUuid := 0 } u := by
  have hrun : (replay (next { workerUuid := 0 }) launched takesJob).map (fun r ↦
      (r.2.loop.activeJobIds, decide (∀ s ∈ r.1, AcquiresAnew { workerUuid := 0 } s.1 s.2))) =
      some ({1}, true) := by decide +kernel
  obtain ⟨⟨past, p⟩, hs, hp⟩ := Option.map_eq_some_iff.mp hrun
  simp only [Prod.mk.injEq, decide_eq_true_eq] at hp
  have hrun := run_of_replay hs
  exact ⟨past, p, hrun, hp.1, (accounted_iff_acquiresAnew hrun).mpr fun s ↦ hp.2 s⟩

/-- A worker that reclaims a job from itself leaves another one queued. -/
theorem not_accounted_reclaimsFromItself : ¬ ∀ (cfg : MainLoopConfig)
    (past : List (Process × Move)) (p : Process), Run cfg past p →
      ∀ u ∈ states past p, Accounted cfg u := by
  intro hall
  have hrun : (replay (next { workerUuid := 0 }) launched reclaimsFromItself).map (fun r ↦
      (r.2.loop.activeJobIds, r.2.loop.executing, r.2.loop.queued)) =
      some ({1, 2}, [1, 1], [2]) := by decide +kernel
  obtain ⟨⟨past, p⟩, hs, hp⟩ := Option.map_eq_some_iff.mp hrun
  simp only [Prod.mk.injEq] at hp
  have h := hall _ _ p (run_of_replay hs) p List.mem_cons_self
  exact absurd (hp.2.2.symm.trans h.noneQueued) (by decide)

end Process
end JobWorker
