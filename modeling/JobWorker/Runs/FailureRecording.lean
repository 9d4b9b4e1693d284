import JobWorker.History
import JobWorker.RowEffects

/-!
# Heartbeats while a failure is recorded

The except branch of `execute_job` runs `handle_exception` in a transaction under snapshot
isolation, while the heartbeat thread of the attempt and the main loop of its worker still
rewrite the row (`job_worker/cli/worker.py:425–448,764–809,1133–1297`). A write of a row
that has got a new version since the snapshot aborts the transaction, which is not retried.
-/

namespace JobWorker

/-- A heartbeat statement: of the thread of one attempt, or of a main loop. -/
inductive Beat
  | heartbeatJob (worker : WorkerUuid) (now : Time) (job : JobId)
  | updateHeartbeats (worker : WorkerUuid) (now : Time) (activeJobIds : List JobId)
  deriving DecidableEq

namespace Beat

/-- The statement over the table. -/
def run (s : Store) : Beat → Store
  | .heartbeatJob worker now job => JobWorker.heartbeatJob worker now s job
  | .updateHeartbeats worker now activeJobIds =>
    JobWorker.updateHeartbeats worker now s activeJobIds

/-- Its `NOW()`. -/
def now : Beat → Time
  | .heartbeatJob _ now _ | .updateHeartbeats _ now _ => now

/-- Its condition on a row. -/
def hits : Beat → JobId → Job → Bool
  | .heartbeatJob worker _ job, i, r => i == job && r.ownedBy worker
  | .updateHeartbeats worker _ activeJobIds, i, r =>
    activeJobIds.contains i && r.workerId == some worker

/-- It refreshes the jobs of `worker`, the job `j` among them. -/
def Names (worker : WorkerUuid) (j : JobId) : Beat → Prop
  | .heartbeatJob worker' _ job => j = job ∧ worker = worker'
  | .updateHeartbeats worker' _ activeJobIds => j ∈ activeJobIds ∧ worker = worker'

instance (worker : WorkerUuid) (j : JobId) : ∀ b, Decidable (Names worker j b)
  | .heartbeatJob _ _ _ => inferInstanceAs (Decidable (_ ∧ _))
  | .updateHeartbeats _ _ _ => inferInstanceAs (Decidable (_ ∧ _))

/-- What it leaves of a row. -/
def row (b : Beat) (i : JobId) (r : Job) : Job :=
  if b.hits i r then { r with heartbeat := some b.now } else r

/-- The statement works row by row. -/
theorem get?_run (b : Beat) (s : Store) (i : JobId) :
    (b.run s).get? i = (s.get? i).map (b.row i) := by
  cases b with
  | heartbeatJob worker now job => exact get?_heartbeatJob worker now s job i
  | updateHeartbeats worker now ids => exact get?_updateHeartbeats worker now s i ids

end Beat

/-! ### The transaction -/

/-- The committed rows, each with the number of its versions. -/
structure Committed where
  rows : JobId → Option Job
  version : JobId → Nat

/-- A heartbeat commits. -/
def Committed.beat (db : Committed) (b : Beat) : Committed where
  rows i := (db.rows i).map (b.row i)
  version i := if (db.rows i).any (b.hits i) then db.version i + 1 else db.version i

/-- How far the transaction of the except branch has come: it has not read yet, it has read
a snapshot, it holds the locks of the rows that it has written, or it is over. -/
inductive Handling
  | raised
  | reading (snapshot : Store) (version : JobId → Nat)
  | writing (snapshot result : Store)
  | recorded
  | aborted

/-- The database and the transaction of the except branch. -/
structure Recording where
  db : Committed
  handling : Handling := .raised

/-- What commits or is done next. -/
inductive Action
  | beat (b : Beat)
  | snapshot
  | write
  | commit
  deriving DecidableEq

namespace Recording

/-- One action, for attempt `a`, exception `exc` and the `NOW()` of its transaction. A
heartbeat that has to wait for a row lock is the action that it takes behind the wait. -/
inductive Step (a : Attempt) (exc : JobException) (traceback : String) (now : Time)
    (c : Recording) : Action → Recording → Prop
  | beat {b : Beat} : (∀ s s', c.handling = .writing s s' → ∀ i r, c.db.rows i = some r →
      b.hits i r = true → s'.get? i = s.get? i) →
      Step a exc traceback now c (.beat b) { c with db := c.db.beat b }
  | snapshot {s : Store} : c.handling = .raised → (∀ i, s.get? i = c.db.rows i) →
      Step a exc traceback now c .snapshot { c with handling := .reading s c.db.version }
  | write {s s' : Store} {version : JobId → Nat} : c.handling = .reading s version →
      handleException a.cfg now exc traceback s a.job = .ok s' →
      (∀ i, s'.get? i ≠ s.get? i → c.db.version i = version i) →
      Step a exc traceback now c .write { c with handling := .writing s s' }
  /-- A row to be written has a version that the snapshot does not show. -/
  | abort {s s' : Store} {version : JobId → Nat} {i : JobId} : c.handling = .reading s version →
      handleException a.cfg now exc traceback s a.job = .ok s' →
      s'.get? i ≠ s.get? i → c.db.version i ≠ version i →
      Step a exc traceback now c .write { c with handling := .aborted }
  | commit {s s' : Store} : c.handling = .writing s s' →
      Step a exc traceback now c .commit {
        db := {
          rows := fun i ↦ if s'.get? i = s.get? i then c.db.rows i else s'.get? i
          version := fun i ↦ if s'.get? i = s.get? i then c.db.version i else c.db.version i + 1 }
        handling := .recorded }

/-- A sequence of actions, the first one first. -/
inductive Steps (a : Attempt) (exc : JobException) (traceback : String) (now : Time) :
    Recording → List Action → Recording → Prop
  | nil {c : Recording} : Steps a exc traceback now c [] c
  | cons {c c' c'' : Recording} {x : Action} {xs : List Action} :
      Step a exc traceback now c x c' → Steps a exc traceback now c' xs c'' →
      Steps a exc traceback now c (x :: xs) c''

/-- The committed table of a world, before the except branch reads it. -/
def start (s : Store) : Recording := { db := { rows := s.get?, version := fun _ ↦ 0 } }

/-- The transaction is over. -/
def Finished (c : Recording) : Prop := c.handling = .recorded ∨ c.handling = .aborted

/-- The actions between the snapshot and the write. -/
def betweenSnapshotAndWrite : List Action → List Action
  | [] => []
  | .snapshot :: xs => xs.takeWhile (· != .write)
  | _ :: xs => betweenSnapshotAndWrite xs

/-- No heartbeat of the job commits between the snapshot and the write. -/
def Undisturbed (a : Attempt) (xs : List Action) : Prop :=
  ∀ b, .beat b ∈ betweenSnapshotAndWrite xs → ¬ b.Names a.cfg.workerUuid a.job

/-- The failure of attempt `a` on table `s₀` is on its row, which is pending or failed, and
behind a failure its cascade on the rows of its dependents. -/
def Recorded (a : Attempt) (exc : JobException) (traceback : String) (now : Time) (s₀ : Store)
    (c : Recording) : Prop :=
  (∃ r, s₀.get? a.job = some r ∧
    c.db.rows a.job = some (handledRow now traceback (dispositionOf a.cfg now exc r) r)) ∧
  ∃ s s', (∀ i, (s.get? i).map (fun r ↦ { r with heartbeat := none }) =
      (s₀.get? i).map fun r ↦ { r with heartbeat := none }) ∧
    handleException a.cfg now exc traceback s a.job = .ok s' ∧
    ∀ i, s'.get? i ≠ s.get? i → c.db.rows i = s'.get? i

/-- The row is still started, without a trace of the failure. -/
def Lost (a : Attempt) (s₀ : Store) (c : Recording) : Prop :=
  ∃ r beat, s₀.get? a.job = some r ∧ r.state = .started ∧
    c.db.rows a.job = some { r with heartbeat := beat }

section Heartbeats

variable {b : Beat} {worker : WorkerUuid} {i j : JobId} {r r' : Job} {s₀ : Store}
  {db : Committed}

/-- A job without a worker is not refreshed. -/
theorem hits_of_workerId (h : r.workerId = none) : b.hits i r = false := by
  cases b <;> simp [Beat.hits, Job.ownedBy, h]

/-- The job of an attempt that holds its row is refreshed by the heartbeats that name it. -/
theorem hits_iff_names (h : r.ownedBy worker = true) :
    b.hits j r = true ↔ b.Names worker j := by
  rw [Job.ownedBy, Bool.and_eq_true, beq_iff_eq, beq_iff_eq] at h
  cases b with
  | heartbeatJob => simp [Beat.hits, Beat.Names, Job.ownedBy, h.1, h.2]
  | updateHeartbeats => simp [Beat.hits, Beat.Names, h.2]

/-- The committed rows are those of `s₀` but for heartbeats. -/
def AgreesWith (s₀ : Store) (rows : JobId → Option Job) : Prop :=
  ∀ i, (rows i).map (fun r ↦ { r with heartbeat := none }) =
    (s₀.get? i).map fun r ↦ { r with heartbeat := none }

/-- An agreeing row. -/
theorem AgreesWith.row {rows : JobId → Option Job} (h : AgreesWith s₀ rows)
    (hr : s₀.get? i = some r) : ∃ beat, rows i = some { r with heartbeat := beat } := by
  have hi := h i
  rw [hr, Option.map_some, Option.map_eq_some_iff] at hi
  obtain ⟨q, hq, he⟩ := hi
  refine ⟨q.heartbeat, hq.trans (congrArg some ?_)⟩
  exact congrArg (fun r : Job ↦ { r with heartbeat := q.heartbeat }) he

/-- Heartbeats keep the agreement. -/
theorem AgreesWith.beat (h : AgreesWith s₀ db.rows) (b : Beat) :
    AgreesWith s₀ (db.beat b).rows := by
  intro i
  rw [← h i, Committed.beat, Option.map_map]
  congr 1
  funext r
  rw [Function.comp_apply, Beat.row]
  split <;> rfl

end Heartbeats

section Phases

variable {a : Attempt} {exc : JobException} {traceback : String} {now : Time} {s₀ s s' : Store}
  {c c' : Recording} {xs : List Action} {i : JobId} {r : Job}

/-- Jobs that wait have no worker. -/
def WaitingUnowned (s₀ : Store) : Prop :=
  ∀ i r, s₀.get? i = some r → r.isWaiting = true → r.workerId = none

/-- Another job whose row `handle_exception` has changed waited, and has no worker. -/
theorem workerId_of_changed (hidle : WaitingUnowned s₀) (hs : AgreesWith s₀ s.get?)
    (hown : World.Holds s₀ a) (h : handleException a.cfg now exc traceback s a.job = .ok s')
    (hi : i ≠ a.job) (hchanged : s'.get? i ≠ s.get? i) {rows : JobId → Option Job}
    (hrows : AgreesWith s₀ rows) :
    (∀ r, rows i = some r → r.workerId = none) ∧ ∀ r, s'.get? i = some r → r.workerId = none := by
  obtain ⟨r₀, hr₀, _⟩ := hown
  obtain ⟨beat, hself⟩ := hs.row hr₀
  have hrel := get?_handleException_of_ne h hself hi
  cases hq₀ : s₀.get? i with
  | none =>
    have hq := hs i
    rw [hq₀, Option.map_none, Option.map_eq_none_iff] at hq
    rw [hq] at hrel hchanged
    generalize s'.get? i = o at hrel hchanged
    cases hrel
    exact absurd rfl hchanged
  | some q₀ =>
    obtain ⟨beat', hq⟩ := hs.row hq₀
    rw [hq] at hrel hchanged
    generalize s'.get? i = o at hrel hchanged
    cases hrel with
    | some hc =>
      have hw : q₀.isWaiting = true := by
        by_contra hn
        exact hchanged (congrArg some (hc.eq (Bool.eq_false_iff.mpr hn)))
      have hnone := hidle i q₀ hq₀ hw
      constructor
      · obtain ⟨beat'', hrow⟩ := hrows.row hq₀
        intro r hr
        rw [hrow, Option.some.injEq] at hr
        exact hr ▸ hnone
      · intro r hr
        rw [Option.some.injEq] at hr
        subst hr
        cases hc <;> exact hnone

/-- Behind an abort only heartbeats come. -/
theorem lost_of_aborted (hown : World.Holds s₀ a) (hc : c.handling = .aborted)
    (hrows : AgreesWith s₀ c.db.rows) (hsteps : Steps a exc traceback now c xs c') :
    Lost a s₀ c' := by
  induction hsteps with
  | nil =>
    obtain ⟨r, hr, hr'⟩ := hown
    obtain ⟨beat, hrow⟩ := hrows.row hr
    refine ⟨r, beat, hr, ?_, hrow⟩
    rw [Job.ownedBy, Bool.and_eq_true, beq_iff_eq] at hr'
    exact hr'.1
  | cons hstep _ ih =>
    cases hstep with
    | beat => exact ih hc (hrows.beat _)
    | snapshot h | write h | abort h | commit h => rw [hc] at h; cases h

/-- What is written of a failure does not depend on the heartbeat. -/
theorem handledRow_heartbeat (cfg : WorkerConfig) (beat : Option Time) :
    handledRow now traceback (dispositionOf cfg now exc { r with heartbeat := beat })
      { r with heartbeat := beat } = handledRow now traceback (dispositionOf cfg now exc r) r := by
  have hd : dispositionOf cfg now exc { r with heartbeat := beat } =
      dispositionOf cfg now exc r := by
    cases exc <;> rfl
  rw [hd]
  cases dispositionOf cfg now exc r <;> rfl

/-- A failure that is written leaves a row of another state, without a worker. -/
theorem handledRow_state (cfg : WorkerConfig) :
    (handledRow now traceback (dispositionOf cfg now exc r) r).state ≠ .started ∧
      (handledRow now traceback (dispositionOf cfg now exc r) r).workerId = none := by
  cases dispositionOf cfg now exc r
  · exact ⟨by simp [handledRow], rfl⟩
  · exact ⟨by simp [handledRow], rfl⟩

/-- The row of the attempt is written. -/
theorem get?_self (hr : s₀.get? a.job = some r) (hown : r.ownedBy a.cfg.workerUuid = true)
    (hs : AgreesWith s₀ s.get?)
    (h : handleException a.cfg now exc traceback s a.job = .ok s') :
    s'.get? a.job = some (handledRow now traceback (dispositionOf a.cfg now exc r) r) ∧
      s'.get? a.job ≠ s.get? a.job := by
  obtain ⟨beat, hself⟩ := hs.row hr
  have hhandled := get?_handleException_self h hself
  rw [handledRow_heartbeat] at hhandled
  refine ⟨hhandled, fun he ↦ ?_⟩
  rw [hhandled, hself, Option.some.injEq] at he
  have hstarted := congrArg Job.state he
  rw [Job.ownedBy, Bool.and_eq_true, beq_iff_eq] at hown
  exact (handledRow_state a.cfg).1 (hstarted.trans hown.1)

/-- No row that has been written has a worker. -/
theorem workerId_of_written (hidle : WaitingUnowned s₀) (hown : World.Holds s₀ a)
    (hs : AgreesWith s₀ s.get?) (h : handleException a.cfg now exc traceback s a.job = .ok s')
    (hchanged : s'.get? i ≠ s.get? i) (hr : s'.get? i = some r) : r.workerId = none := by
  by_cases hi : i = a.job
  · subst hi
    obtain ⟨r₀, hr₀, hown⟩ := hown
    rw [(get?_self hr₀ hown hs h).1, Option.some.injEq] at hr
    exact hr ▸ (handledRow_state a.cfg).2
  · exact (workerId_of_changed hidle hs hown h hi hchanged hs).2 r hr

/-- Behind the commit heartbeats pass over the rows that it has written. -/
theorem recorded_of_recorded (hidle : WaitingUnowned s₀) (hown : World.Holds s₀ a)
    (hs : AgreesWith s₀ s.get?) (h : handleException a.cfg now exc traceback s a.job = .ok s')
    (hc : c.handling = .recorded) (hrows : ∀ i, s'.get? i ≠ s.get? i → c.db.rows i = s'.get? i)
    (hsteps : Steps a exc traceback now c xs c') : Recorded a exc traceback now s₀ c' := by
  induction hsteps with
  | nil =>
    obtain ⟨r, hr, hr'⟩ := hown
    obtain ⟨hhandled, hne⟩ := get?_self hr hr' hs h
    exact ⟨⟨r, hr, (hrows a.job hne).trans hhandled⟩, s, s', hs, h, hrows⟩
  | cons hstep _ ih =>
    cases hstep with
    | @beat b =>
      refine ih hc fun i hchanged ↦ ?_
      refine (congrArg (Option.map (b.row i)) (hrows i hchanged)).trans ?_
      cases hr : s'.get? i with
      | none => rfl
      | some r =>
        rw [Option.map_some, Beat.row,
          hits_of_workerId (workerId_of_written hidle hown hs h hchanged hr)]
        rfl
    | snapshot h | write h | abort h | commit h => rw [hc] at h; cases h

/-- The transaction that has written commits, whatever the heartbeats do. -/
theorem recorded_of_writing (hidle : WaitingUnowned s₀) (hown : World.Holds s₀ a)
    (hs : AgreesWith s₀ s.get?) (h : handleException a.cfg now exc traceback s a.job = .ok s')
    (hc : c.handling = .writing s s') (hsteps : Steps a exc traceback now c xs c')
    (hfin : c'.Finished) : Recorded a exc traceback now s₀ c' := by
  induction hsteps with
  | nil => rcases hfin with hf | hf <;> rw [hc] at hf <;> cases hf
  | cons hstep hrest ih =>
    cases hstep with
    | beat => exact ih hc hfin
    | @commit s₁ s₁' h₁ =>
      rw [hc, Handling.writing.injEq] at h₁
      obtain ⟨rfl, rfl⟩ := h₁
      exact recorded_of_recorded hidle hown hs h rfl (fun i hchanged ↦ if_neg hchanged) hrest
    | snapshot h | write h | abort h => rw [hc] at h; cases h

/-- The row of the attempt has no version that the snapshot does not show, and gets none
before the write. -/
def Unread (a : Attempt) (version : JobId → Nat) (c : Recording) (xs : List Action) : Prop :=
  c.db.version a.job = version a.job ∧
    ∀ b, .beat b ∈ xs.takeWhile (· != .write) → ¬ b.Names a.cfg.workerUuid a.job

/-- Rows of other jobs that `handle_exception` would write have no version that the snapshot
does not show. -/
def OthersRead (a : Attempt) (exc : JobException) (traceback : String) (now : Time) (s : Store)
    (version : JobId → Nat) (c : Recording) : Prop :=
  ∀ i s', i ≠ a.job → handleException a.cfg now exc traceback s a.job = .ok s' →
    s'.get? i ≠ s.get? i → c.db.version i = version i

/-- A heartbeat of the job, and no other, gives its row a version. -/
theorem version_beat (hown : World.Holds s₀ a) (hrows : AgreesWith s₀ c.db.rows) (b : Beat) :
    (c.db.beat b).version a.job = if b.Names a.cfg.workerUuid a.job then
      c.db.version a.job + 1 else c.db.version a.job := by
  obtain ⟨r, hr, hown⟩ := hown
  obtain ⟨beat, hrow⟩ := hrows.row hr
  have hnames : b.hits a.job { r with heartbeat := beat } = true ↔
      b.Names a.cfg.workerUuid a.job := hits_iff_names hown
  simp only [Committed.beat, hrow, Option.any_some, hnames]

/-- A heartbeat before the write decides as one that has come already. -/
theorem unread_cons_beat {version : JobId → Nat} (hown : World.Holds s₀ a)
    (hrows : AgreesWith s₀ c.db.rows) (hle : version a.job ≤ c.db.version a.job) (b : Beat) :
    Unread a version c (.beat b :: xs) ↔ Unread a version { c with db := c.db.beat b } xs := by
  have hwrite : (Action.beat b != .write) = true := rfl
  simp only [Unread, version_beat hown hrows, List.takeWhile_cons, hwrite, if_true,
    List.mem_cons, Action.beat.injEq, forall_eq_or_imp]
  by_cases hn : b.Names a.cfg.workerUuid a.job
  · refine iff_of_false (fun h ↦ h.2.1 hn) fun h ↦ ?_
    rw [if_pos hn] at h
    omega
  · rw [if_neg hn]
    exact and_congr_right fun _ ↦ and_iff_right hn

/-- A heartbeat gives no version to another row that is to be written. -/
theorem OthersRead.beat {version : JobId → Nat} (hidle : WaitingUnowned s₀)
    (hown : World.Holds s₀ a) (hs : AgreesWith s₀ s.get?) (hrows : AgreesWith s₀ c.db.rows)
    (h : OthersRead a exc traceback now s version c) (b : Beat) :
    OthersRead a exc traceback now s version { c with db := c.db.beat b } := by
  intro i s' hi hexec hchanged
  rw [← h i s' hi hexec hchanged]
  have hunowned := (workerId_of_changed hidle hs hown hexec hi hchanged hrows).1
  refine if_neg fun hhit ↦ ?_
  obtain ⟨r, hr, hhit⟩ := (Option.any_eq_true _ _).mp hhit
  rw [hits_of_workerId (hunowned r hr)] at hhit
  cases hhit

/-- The transaction that has read its snapshot records the failure exactly when no heartbeat
of the job has come or comes before its write. -/
theorem outcome_of_reading {version : JobId → Nat} (hidle : WaitingUnowned s₀)
    (hown : World.Holds s₀ a) (hs : AgreesWith s₀ s.get?) (hc : c.handling = .reading s version)
    (hrows : AgreesWith s₀ c.db.rows) (hle : version a.job ≤ c.db.version a.job)
    (hothers : OthersRead a exc traceback now s version c)
    (hsteps : Steps a exc traceback now c xs c') (hfin : c'.Finished) :
    (Unread a version c xs → Recorded a exc traceback now s₀ c') ∧
      (¬ Unread a version c xs → Lost a s₀ c') := by
  induction hsteps with
  | nil => rcases hfin with hf | hf <;> rw [hc] at hf <;> cases hf
  | cons hstep hrest ih =>
    cases hstep with
    | @beat b =>
      rw [unread_cons_beat hown hrows hle b]
      refine ih hc (hrows.beat b) ?_ (hothers.beat hidle hown hs hrows b) hfin
      refine Nat.le_trans hle ?_
      rw [version_beat hown hrows]
      split
      · exact Nat.le_succ _
      · exact Nat.le_refl _
    | @write s₁ s' v h₁ hexec hsame =>
      rw [hc, Handling.reading.injEq] at h₁
      obtain ⟨rfl, rfl⟩ := h₁
      obtain ⟨r, hr, hown'⟩ := id hown
      have hread := hsame a.job (get?_self hr hown' hs hexec).2
      refine ⟨fun _ ↦ recorded_of_writing hidle hown hs hexec rfl hrest hfin, fun hn ↦ ?_⟩
      exact absurd ⟨hread, by simp⟩ hn
    | @abort s₁ s' v i h₁ hexec hchanged hne =>
      rw [hc, Handling.reading.injEq] at h₁
      obtain ⟨rfl, rfl⟩ := h₁
      -- No other row can have made the conflict.
      obtain rfl : i = a.job := by
        by_contra hi
        exact hne (hothers i s' hi hexec hchanged)
      exact ⟨fun hu ↦ absurd hu.1 hne, fun _ ↦ lost_of_aborted hown rfl (by exact hrows) hrest⟩
    | snapshot h | commit h => rw [hc] at h; cases h

/-- Before the snapshot heartbeats do not matter. -/
theorem outcome_of_raised (hidle : WaitingUnowned s₀) (hown : World.Holds s₀ a)
    (hc : c.handling = .raised) (hrows : AgreesWith s₀ c.db.rows)
    (hsteps : Steps a exc traceback now c xs c') (hfin : c'.Finished) :
    (Undisturbed a xs → Recorded a exc traceback now s₀ c') ∧
      (¬ Undisturbed a xs → Lost a s₀ c') := by
  induction hsteps with
  | nil => rcases hfin with hf | hf <;> rw [hc] at hf <;> cases hf
  | @cons c c₁ c' x xs hstep hrest ih =>
    cases hstep with
    | beat => exact ih hc (hrows.beat _) hfin
    | @snapshot s _ hsnap =>
      have hs : AgreesWith s₀ s.get? := fun i ↦ by rw [hsnap i, hrows i]
      have hunread : Undisturbed a (.snapshot :: xs) ↔
          Unread a c.db.version { c with handling := .reading s c.db.version } xs :=
        (and_iff_right rfl).symm
      rw [hunread]
      exact outcome_of_reading hidle hown hs rfl hrows (Nat.le_refl _) (fun _ _ _ _ _ ↦ rfl)
        hrest hfin
    | write h | abort h | commit h => rw [hc] at h; cases h

end Phases

/-- A failure that is recorded is not lost. -/
theorem not_lost_of_recorded {a : Attempt} {exc : JobException} {traceback : String} {now : Time}
    {s₀ : Store} {c : Recording} (h : Recorded a exc traceback now s₀ c) : ¬ Lost a s₀ c := by
  rintro ⟨r, beat, hr, hs, hrow⟩
  obtain ⟨⟨q, hq, hhandled⟩, _⟩ := h
  obtain rfl : r = q := Option.some.inj (hr.symm.trans hq)
  rw [hrow, Option.some.injEq] at hhandled
  exact (handledRow_state a.cfg).1 ((congrArg Job.state hhandled).symm.trans hs)

/-- The failure of an attempt that holds its row is recorded exactly when no heartbeat of
the job commits between the snapshot and the write of the except branch; otherwise the row
is left started. -/
theorem recorded_iff {guard : World → Event → Prop} {w : World} {a : Attempt}
    {exc : JobException} {traceback : String} {now : Time} {xs : List Action} {c : Recording}
    (hw : World.Reachable guard w) (hown : World.Holds w.store a)
    (hsteps : Steps a exc traceback now (start w.store) xs c) (hfin : c.Finished) :
    (Recorded a exc traceback now w.store c ↔ Undisturbed a xs) ∧
      (Lost a w.store c ↔ ¬ Undisturbed a xs) := by
  have hidle : WaitingUnowned w.store := fun i r hr ↦ hw.workerId_of_waiting hr
  obtain ⟨hrecorded, hlost⟩ := outcome_of_raised hidle hown rfl (fun _ ↦ rfl) hsteps hfin
  refine ⟨⟨fun h ↦ ?_, hrecorded⟩, ⟨fun h hu ↦ ?_, hlost⟩⟩
  · by_contra hn
    exact not_lost_of_recorded h (hlost hn)
  · exact not_lost_of_recorded (hrecorded hu) h

/-! ### One heartbeat -/

section OneHeartbeat

variable {a : Attempt} {s : Store}

/-- `handle_exception` of a started job meets no constraint. -/
theorem exists_handleException (hown : World.Holds s a) (exc : JobException)
    (traceback : String) (now : Time) :
    ∃ s', handleException a.cfg now exc traceback s a.job = .ok s' := by
  obtain ⟨r, hr, hown⟩ := hown
  rw [Job.ownedBy, Bool.and_eq_true, beq_iff_eq, beq_iff_eq] at hown
  have hactive : r.state.isActive = true := by rw [hown.1]; rfl
  obtain ⟨s₁, hw⟩ : ∃ s₁, s.write a.job
      (handledRow now traceback (dispositionOf a.cfg now exc r))
      (identityKey_handledRow now traceback _) = .ok s₁ :=
    Store.write_isOk_iff.mpr (Store.identityKeyDuplicate_of_active hr hactive)
  unfold handleException
  rw [hr]
  dsimp only
  rw [hw]
  cases dispositionOf a.cfg now exc r with
  | retry => exact ⟨s₁, rfl⟩
  | fail => exact ⟨_, rfl⟩

/-- A heartbeat of the attempt's own thread behind the snapshot. -/
def beatBehindSnapshot (a : Attempt) : List Action :=
  [.snapshot, .beat (.heartbeatJob a.cfg.workerUuid 0 a.job), .write]

/-- A heartbeat of the attempt's own thread before the snapshot. -/
def beatBeforeSnapshot (a : Attempt) : List Action :=
  [.beat (.heartbeatJob a.cfg.workerUuid 0 a.job), .snapshot, .write, .commit]

/-- One heartbeat behind the snapshot is enough to lose the failure. -/
theorem exists_lost (hown : World.Holds s a) (exc : JobException) (traceback : String)
    (now : Time) : ∃ c, Steps a exc traceback now (start s) (beatBehindSnapshot a) c ∧
      c.Finished ∧ Lost a s c := by
  obtain ⟨s', hexec⟩ := exists_handleException hown exc traceback now
  obtain ⟨r, hr, hown'⟩ := id hown
  have hagrees : AgreesWith s s.get? := fun _ ↦ rfl
  let beaten := (start s).db.beat (.heartbeatJob a.cfg.workerUuid 0 a.job)
  have hbeaten : beaten.version a.job = 1 :=
    (version_beat hown hagrees _).trans (if_pos ⟨rfl, rfl⟩)
  have hlost : Lost a s { db := beaten, handling := .aborted } :=
    lost_of_aborted hown rfl (hagrees.beat _) (.nil : Steps a exc traceback now _ [] _)
  refine ⟨{ db := beaten, handling := .aborted }, ?_, .inr rfl, hlost⟩
  refine .cons (.snapshot rfl fun _ ↦ rfl) (.cons (.beat fun _ _ h ↦ by cases h) (.cons ?_ .nil))
  exact .abort rfl hexec (get?_self hr hown' hagrees hexec).2
    (by rw [hbeaten]; exact Nat.one_ne_zero)

/-- A heartbeat before the snapshot does not stop the transaction. -/
theorem exists_steps_of_beatBeforeSnapshot (hown : World.Holds s a) (exc : JobException)
    (traceback : String) (now : Time) :
    ∃ c, Steps a exc traceback now (start s) (beatBeforeSnapshot a) c ∧ c.Finished := by
  let beaten := JobWorker.heartbeatJob a.cfg.workerUuid 0 s a.job
  have hbeaten : World.Holds beaten a := by
    obtain ⟨r, hr, hown⟩ := hown
    refine ⟨(Beat.heartbeatJob a.cfg.workerUuid 0 a.job).row a.job r, ?_, ?_⟩
    · exact (Beat.get?_run (.heartbeatJob a.cfg.workerUuid 0 a.job) s a.job).trans
        (by rw [hr]; rfl)
    · rw [Beat.row]
      split <;> exact hown
  obtain ⟨s', hexec⟩ := exists_handleException hbeaten exc traceback now
  refine ⟨_, .cons (.beat fun _ _ h ↦ by cases h) (.cons (.snapshot rfl fun i ↦ ?_)
    (.cons (.write rfl hexec fun _ _ ↦ rfl) (.cons (.commit rfl) .nil))), .inl rfl⟩
  exact Beat.get?_run (.heartbeatJob a.cfg.workerUuid 0 a.job) s i

end OneHeartbeat

/-- A job and its acquisition by worker 0. -/
def enqueueAndAcquire : List Event := [
  .enqueue {} { modelName := "res.partner", methodName := "ping" },
  .acquireJobLock { workerUuid := 0 } (fun _ ↦ none) fun _ ↦ false]

/-- The attempt behind it. -/
def firstAttempt : Attempt := ⟨1, { workerUuid := 0 }, 1⟩

/-- The first attempt runs. -/
theorem exists_firstAttempt : ∃ w, World.Reachable (fun _ _ ↦ True) w ∧
    firstAttempt ∈ w.attempts ∧ World.Holds w.store firstAttempt := by
  have hrun : (World.script [] (World.init 0) enqueueAndAcquire).map (fun (_, w) ↦
      decide (firstAttempt ∈ w.attempts ∧ World.Holds w.store firstAttempt)) = some true := by
    decide +kernel
  obtain ⟨⟨past, w⟩, hs, hw⟩ := Option.map_eq_some_iff.mp hrun
  exact ⟨w, (World.trace_of_script (.init 0) hs).reachable, of_decide_eq_true hw⟩

/-- The heartbeat before the snapshot leaves the failure to be recorded. -/
theorem recorded_iff_beatBeforeSnapshot : ∃ (w : World) (c : Recording), firstAttempt ∈ w.attempts ∧
    Steps firstAttempt .exception "" 0 (start w.store) (beatBeforeSnapshot firstAttempt) c ∧
    Recorded firstAttempt .exception "" 0 w.store c := by
  obtain ⟨w, hw, ha, hown⟩ := exists_firstAttempt
  obtain ⟨c, hsteps, hfin⟩ := exists_steps_of_beatBeforeSnapshot hown .exception "" 0
  refine ⟨w, c, ha, hsteps, (recorded_iff hw hown hsteps hfin).1.mpr fun b hb ↦ ?_⟩
  simp [betweenSnapshotAndWrite, beatBeforeSnapshot] at hb

/-- The heartbeat behind the snapshot leaves the row started. -/
theorem not_recorded_beatBehindSnapshot : ¬ ∀ (w : World) (a : Attempt) (exc : JobException)
    (traceback : String) (now : Time) (xs : List Action) (c : Recording),
    World.Reachable (fun _ _ ↦ True) w → a ∈ w.attempts → World.Holds w.store a →
    Steps a exc traceback now (start w.store) xs c → c.Finished →
      Recorded a exc traceback now w.store c := by
  intro hall
  obtain ⟨w, hw, ha, hown⟩ := exists_firstAttempt
  obtain ⟨c, hsteps, hfin, hlost⟩ := exists_lost hown .exception "" 0
  exact not_lost_of_recorded (hall w _ _ _ _ _ c hw ha hown hsteps hfin) hlost

end Recording
end JobWorker
