import JobWorker.Cli.Discovery
import JobWorker.Runs.Quarantine

/-!
# Databases whose probe fails

`_database_has_module` answers an error like a missing module, and `discover_databases` removes
every database without a positive answer (`job_worker/cli/runner.py:99–137,326–417`).
-/

namespace JobWorker

open Transition QueueJobRunner

/-- The reading of the clock at which a pass looks at the quarantine of a database: one for each
quarantined database with failures up to it; `cli/runner.py:601–602,631–632`. -/
def QueueJobRunner.expiryReading (s : QueueJobRunner) (db : String) : Time :=
  let looked := (sortedNames s.quarantinedDatabases).takeWhile (· != db) ++ [db]
  s.now + ((s.delays.take (looked.countP fun name ↦ s.failureTimestamps name != [])).sum : Nat)

/-- A pass looks at the quarantine of a database without a change: all of its failures are still
in the window, and they are enough. -/
def QueueJobRunner.StaysQuarantined (cfg : RunnerConfig) (s : QueueJobRunner) (db : String) :
    Prop :=
  (∀ ts ∈ s.failureTimestamps db,
    s.expiryReading db - cfg.failureWindowSeconds * second ≤ ts) ∧
      cfg.maximumConsecutiveFailures ≤ (s.failureTimestamps db).length

/-- A pass that removes no worker because of an error. -/
structure SparesErrors (p : DiscoveryPass) (s s' : LockingRunner) : Prop where
  stops : ∀ thread ∈ s.runner.workerThreads, s.runner.phase thread ≠ .dead →
    thread ∉ s'.runner.workerThreads →
      thread.database ∉ p.databaseNames ∨ (p.probe thread.database).answer = some false
  keeps : ∀ db ∈ p.databaseNames, (p.probe db).answer = none →
    s'.runner.workerThread db = s.runner.workerThread db ∧
      s'.advisoryLockConnections db = s.advisoryLockConnections db ∧
      s'.runner.failureTimestamps db = s.runner.failureTimestamps db ∧
      (db ∈ s'.runner.quarantinedDatabases ↔ db ∈ s.runner.quarantinedDatabases)

section Probes

variable {p : ModuleProbe}

/-- The code takes a module for installed exactly on a positive answer. -/
theorem databaseHasModule_eq_some_true :
    databaseHasModule p = some true ↔ p.answer = some true := by
  obtain ⟨connects, modulesTable, installedRow, closes⟩ := p
  cases connects with
  | false => simp [databaseHasModule, ModuleProbe.answer]
  | true =>
    cases closes with
    | false => simp [databaseHasModule, ModuleProbe.answer]
    | true =>
      rcases modulesTable with _ | _ | _
      · simp [databaseHasModule, ModuleProbe.answer]
      · simp [databaseHasModule, ModuleProbe.answer]
      · cases installedRow with
        | none => simp [databaseHasModule, ModuleProbe.answer]
        | some row => simp [databaseHasModule, ModuleProbe.answer]

end Probes

namespace QueueJobRunner

variable {cfg : RunnerConfig} {s s' : QueueJobRunner} {db other : String}

/-- A look at a quarantine reads the clock if there are failures. -/
def readings (s : QueueJobRunner) (names : List String) : Nat :=
  names.countP fun name ↦ s.failureTimestamps name != []

theorem elapse_now : s.elapse.now = s.now + ((s.delays.take 1).sum : Nat) := by
  cases h : s.delays with
  | nil => simp [elapse, h]
  | cons d ds => simp [elapse, h]

variable (cfg) in
/-- The clock behind a look at a quarantine. -/
theorem expireQuarantine_clock (db : String) :
    (s.expireQuarantine cfg db).now = s.now + ((s.delays.take (s.readings [db])).sum : Nat) ∧
      (s.expireQuarantine cfg db).delays = s.delays.drop (s.readings [db]) := by
  have hclock : (s.expireQuarantine cfg db).now = (s.recentFailureCount cfg db).2.now ∧
      (s.expireQuarantine cfg db).delays = (s.recentFailureCount cfg db).2.delays := by
    unfold expireQuarantine
    dsimp only
    split <;> exact ⟨rfl, rfl⟩
  rw [hclock.1, hclock.2, recentFailureCount]
  by_cases h : s.failureTimestamps db = []
  · simp [readings, h]
  · simp [readings, h, elapse_now]
    simp [elapse]

/-- What a look at a quarantine at `t` leaves of it. -/
structure LookedAt (cfg : RunnerConfig) (db : String) (t : Time) (s s' : QueueJobRunner) : Prop
    where
  failureTimestamps : s'.failureTimestamps db = cfg.remaining t (s.failureTimestamps db)
  quarantined : db ∈ s'.quarantinedDatabases ↔
    cfg.maximumConsecutiveFailures ≤ (cfg.remaining t (s.failureTimestamps db)).length
  registered : ∀ thread, thread.database = db →
    (thread ∈ s'.workerThreads ↔ thread ∈ s.workerThreads)

/-- What happens to other databases before and behind a look is not in it. -/
theorem LookedAt.untouched {t : Time} {u u' : QueueJobRunner} (hbefore : Untouched db s u)
    (h : LookedAt cfg db t u u') (hbehind : Untouched db u' s') : LookedAt cfg db t s s' where
  failureTimestamps := by rw [hbehind.listed, h.failureTimestamps, hbefore.listed]
  quarantined := by rw [hbehind.quarantined, h.quarantined, hbefore.listed]
  registered thread hdb := (hbehind.registered thread hdb).trans
    ((h.registered thread hdb).trans (hbefore.registered thread hdb))

variable (cfg) in
theorem lookedAt_expireQuarantine (hq : db ∈ s.quarantinedDatabases) :
    LookedAt cfg db (s.now + ((s.delays.take (s.readings [db])).sum : Nat)) s
      (s.expireQuarantine cfg db) := by
  obtain ⟨now, delays, _, listed, rfl, heq⟩ := expireQuarantine_eq cfg (s := s) db
  have hnow : now = s.now + ((s.delays.take (s.readings [db])).sum : Nat) := by
    have hclock := (expireQuarantine_clock cfg (s := s) db).1
    rwa [heq] at hclock
  rw [heq, ← hnow]
  refine ⟨Function.update_self _ _ _, ?_, fun _ _ ↦ Iff.rfl⟩
  dsimp only
  split
  · exact iff_of_true hq ‹_›
  · exact iff_of_false (by simp) ‹_›

variable (cfg) in
/-- The looks at other quarantines change nothing but the clock. -/
theorem foldl_expireQuarantine {names : List String} (hnames : names.Nodup) (hdb : db ∉ names) :
    Untouched db s (names.foldl (expireQuarantine cfg) s) ∧
      (names.foldl (expireQuarantine cfg) s).now =
        s.now + ((s.delays.take (s.readings names)).sum : Nat) ∧
      (names.foldl (expireQuarantine cfg) s).delays = s.delays.drop (s.readings names) := by
  induction names generalizing s with
  | nil => exact ⟨untouched_quiet le_rfl fun _ _ ↦ id, by simp [readings], rfl⟩
  | cons name names ih =>
    obtain ⟨hname, hnames⟩ := List.nodup_cons.mp hnames
    obtain ⟨hne, hdb⟩ := List.ne_and_not_mem_of_not_mem_cons hdb
    obtain ⟨huntouched, hnow, hdelays⟩ := ih (s := s.expireQuarantine cfg name) hnames hdb
    obtain ⟨hnow', hdelays'⟩ := expireQuarantine_clock cfg (s := s) name
    have hreadings : (s.expireQuarantine cfg name).readings names = s.readings names := by
      apply List.countP_congr
      intro other hother
      have hlooked : Untouched other s (s.expireQuarantine cfg name) :=
        untouched_expireQuarantine fun heq ↦ hname (heq ▸ hother)
      rw [hlooked.listed]
    have hcons : s.readings (name :: names) = s.readings [name] + s.readings names := by
      rw [readings, readings, readings, ← List.countP_append]
      rfl
    refine ⟨(untouched_expireQuarantine (Ne.symm hne)).trans huntouched, ?_, ?_⟩
    · rw [List.foldl_cons, hnow, hnow', hdelays', hreadings, hcons, List.take_add, List.sum_append,
        Int.natCast_add, add_assoc]
    · rw [List.foldl_cons, hdelays, hdelays', hreadings, hcons, List.drop_drop]

variable (cfg) in
/-- A database that is not quarantined is not looked at. -/
theorem untouched_expireQuarantines (hset : s.quarantinedDatabases.Nodup)
    (hq : db ∉ s.quarantinedDatabases) : Untouched db s (s.expireQuarantines cfg) :=
  (foldl_expireQuarantine cfg ((List.perm_insertionSort _ _).nodup_iff.mpr hset)
    (mt (List.mem_insertionSort _).mp hq)).1

/-- A pass looks at a quarantine at the reading for it. -/
theorem lookedAt_expireQuarantines (hset : s.quarantinedDatabases.Nodup)
    (hq : db ∈ s.quarantinedDatabases) :
    LookedAt cfg db (s.expiryReading db) s (s.expireQuarantines cfg) := by
  obtain ⟨pre, post, hnames⟩ := List.append_of_mem ((List.mem_insertionSort (· ≤ ·)).mpr hq)
  have hnodup : (pre ++ db :: post).Nodup :=
    hnames ▸ (List.perm_insertionSort _ _).nodup_iff.mpr hset
  obtain ⟨hpre, hpost, hdisjoint⟩ := List.nodup_append.mp hnodup
  obtain ⟨hdbpost, hpost⟩ := List.nodup_cons.mp hpost
  have hdbpre : db ∉ pre := fun hmem ↦ hdisjoint db hmem db List.mem_cons_self rfl
  have hlooked : (sortedNames s.quarantinedDatabases).takeWhile (· != db) = pre := by
    rw [sortedNames, hnames, List.takeWhile_append_of_pos, List.takeWhile_cons_of_neg,
      List.append_nil]
    · simp
    · intro name hname
      simp only [bne_iff_ne, ne_eq]
      exact fun heq ↦ hdbpre (heq ▸ hname)
  obtain ⟨hbefore, hnow, hdelays⟩ := foldl_expireQuarantine cfg (s := s) hpre hdbpre
  have hlook := lookedAt_expireQuarantine cfg (hbefore.quarantined.mpr hq)
  have hbehind := (foldl_expireQuarantine cfg
    (s := (pre.foldl (expireQuarantine cfg) s).expireQuarantine cfg db) hpost hdbpost).1
  have hreading : s.expiryReading db = (pre.foldl (expireQuarantine cfg) s).now +
      (((pre.foldl (expireQuarantine cfg) s).delays.take
        ((pre.foldl (expireQuarantine cfg) s).readings [db])).sum : Nat) := by
    have hsame : (pre.foldl (expireQuarantine cfg) s).readings [db] = s.readings [db] :=
      List.countP_congr fun name hname ↦ by
        rw [List.mem_singleton.mp hname, hbefore.listed]
    rw [expiryReading, hlooked, List.countP_append, hsame, hnow, hdelays, List.take_add,
      List.sum_append, Int.natCast_add, add_assoc]
    rfl
  rw [hreading, expireQuarantines, sortedNames, hnames, List.foldl_append, List.foldl_cons]
  exact .untouched hbefore hlook hbehind

/-- A round without an answer leaves a database without a thread alone. -/
theorem untouched_discover {d : Discovery} (h : d.hasModule db ≠ some true) :
    Untouched db s (s.discover cfg d other) := by
  unfold QueueJobRunner.discover
  split_ifs with hmod hthread hlock
  · exact untouched_quiet le_rfl fun _ _ ↦ id
  · exact untouched_quiet le_rfl fun _ _ ↦ id
  · exact untouched_quiet le_rfl fun _ _ ↦ id
  · have hne : other ≠ db := fun heq ↦ h (heq ▸ not_not.mp hmod)
    exact (untouched_quiet now_le_elapse fun _ _ ↦ id).trans (untouched_start hne)

/-- A removal leaves only threads that were registered. -/
theorem mem_of_mem_hotRemove {d : Discovery} {thread : WorkerThread}
    (h : thread ∈ (s.hotRemove d other).workerThreads) :
    thread ∈ s.workerThreads ∧ (d.confirms other = true ∨ thread.database ≠ other) := by
  unfold QueueJobRunner.hotRemove at h
  split at h
  · exact ⟨h, .inl ‹_›⟩
  · cases ht : s.workerThread other with
    | none =>
      simp only [stopWorkerThread, forgetThread, ht] at h
      exact ⟨h, .inr (by simpa using List.find?_eq_none.mp ht thread h)⟩
    | some t =>
      simp only [stopWorkerThread, forgetThread, ht] at h
      obtain ⟨h, hne⟩ := List.mem_filter.mp h
      exact ⟨h, .inr (by simpa using hne)⟩

/-- A removal of another database, or of a confirmed one, keeps a thread. -/
theorem mem_hotRemove {d : Discovery} {thread : WorkerThread} (h : thread ∈ s.workerThreads)
    (hd : d.confirms thread.database = true) : thread ∈ (s.hotRemove d other).workerThreads := by
  unfold QueueJobRunner.hotRemove
  split
  · exact h
  · next hn =>
    have hne : other ≠ thread.database := fun heq ↦ hn (heq ▸ hd)
    exact ((untouched_stop hne).registered thread rfl).mpr h

/-- The threads of a database behind the second loop. -/
theorem mem_of_mem_foldl_hotRemove {d : Discovery} {names : List String} {thread : WorkerThread}
    (h : thread ∈ (names.foldl (fun u db ↦ u.hotRemove d db) s).workerThreads) :
    thread ∈ s.workerThreads ∧ (thread.database ∈ names → d.confirms thread.database = true) := by
  induction names generalizing s with
  | nil => exact ⟨h, nofun⟩
  | cons name names ih =>
    obtain ⟨hmem, hrest⟩ := ih h
    obtain ⟨hmem, hname⟩ := mem_of_mem_hotRemove hmem
    refine ⟨hmem, fun hin ↦ ?_⟩
    rcases List.mem_cons.mp hin with heq | hin
    · rw [heq]
      exact hname.resolve_right (not_not.mpr heq)
    · exact hrest hin

/-- A pass leaves threads of confirmed databases only. -/
theorem confirms_of_mem_discoverDatabases {d : Discovery} {thread : WorkerThread}
    (h : thread ∈ (s.discoverDatabases cfg d).workerThreads) :
    d.confirms thread.database = true := by
  obtain ⟨hmem, hconfirms⟩ := mem_of_mem_foldl_hotRemove h
  exact hconfirms (List.mem_map_of_mem hmem)

/-- A pass keeps the thread of a confirmed database. -/
theorem mem_discoverDatabases {d : Discovery} {thread : WorkerThread}
    (h : thread ∈ s.workerThreads) (hd : d.confirms thread.database = true) :
    thread ∈ (s.discoverDatabases cfg d).workerThreads := by
  refine foldl_keeps (P := fun u ↦ thread ∈ u.workerThreads) _ ?_ ?_
  · refine foldl_keeps (P := fun u ↦ thread ∈ u.workerThreads) _ ?_ ?_
    · refine foldl_keeps (P := fun u ↦ thread ∈ u.workerThreads) _ h fun u name _ hu ↦ ?_
      obtain ⟨now, delays, _, listed, _, heq⟩ := expireQuarantine_eq cfg (s := u) name
      rw [heq]
      exact hu
    · intro u name _ hu
      unfold QueueJobRunner.discover
      split_ifs with _ hthread
      · exact hu
      · exact hu
      · exact hu
      · have hne : thread.database ≠ name := by
          rintro rfl
          have hnone := List.find?_eq_none.mp (Option.not_isSome_iff_eq_none.mp hthread) thread hu
          simp at hnone
        simp [startWorkerThread, elapse, hu, hne]
  · exact fun u name _ hu ↦ mem_hotRemove hu hd

variable (cfg) in
/-- The looks at the quarantines register no thread. -/
theorem workerThreads_expireQuarantines :
    (s.expireQuarantines cfg).workerThreads = s.workerThreads := by
  refine foldl_keeps (P := fun u ↦ u.workerThreads = s.workerThreads) _ rfl fun u name _ hu ↦ ?_
  obtain ⟨now, delays, _, listed, _, heq⟩ := expireQuarantine_eq cfg (s := u) name
  rw [heq]
  exact hu

variable (cfg) in
/-- The first loop leaves a database without an answer alone. -/
theorem untouched_foldl_discover {d : Discovery} (h : d.hasModule db ≠ some true)
    (names : List String) : Untouched db s (names.foldl (fun u db ↦ u.discover cfg d db) s) :=
  foldl_keeps _ (untouched_quiet le_rfl fun _ _ ↦ id) fun _ _ _ hu ↦
    hu.trans (untouched_discover h)

variable (cfg) in
/-- A pass leaves a database without a thread and without an answer alone, but for the look at its
quarantine. -/
theorem untouched_discoverDatabases {d : Discovery} (h : d.hasModule db ≠ some true)
    (hnone : ∀ thread ∈ s.workerThreads, thread.database ≠ db) :
    Untouched db (s.expireQuarantines cfg) (s.discoverDatabases cfg d) := by
  have hfirst := untouched_foldl_discover cfg (s := s.expireQuarantines cfg) h
    (sortedNames d.databaseNames)
  refine foldl_keeps _ hfirst fun u name hname hu ↦ ?_
  obtain ⟨thread, hmem, rfl⟩ := List.mem_map.mp hname
  have hne : thread.database ≠ db := fun heq ↦ hnone thread
    (workerThreads_expireQuarantines cfg ▸ (hfirst.registered thread heq).mp hmem) heq
  unfold QueueJobRunner.hotRemove
  split
  · exact hu
  · exact hu.trans (untouched_stop hne)

theorem workerThread_isNone :
    s.workerThread db = none ↔ ∀ thread ∈ s.workerThreads, thread.database ≠ db := by
  simp [workerThread]

end QueueJobRunner

namespace LockingRunner

variable {cfg : RunnerConfig} {p : DiscoveryPass} {s : LockingRunner} {db : String}

/-- A pass leaves the lock of a database without a thread and without an answer alone. -/
theorem advisoryLock_discoverDatabases (h : databaseHasModule (p.probe db) ≠ some true)
    (hnone : ∀ thread ∈ s.runner.workerThreads, thread.database ≠ db) :
    (s.discoverDatabases cfg p).advisoryLockConnections db = s.advisoryLockConnections db := by
  have hfirst (names : List String) (u : LockingRunner) :
      (names.foldl (discover cfg p) u).advisoryLockConnections db =
        u.advisoryLockConnections db := by
    refine List.foldlRecOn (motive := fun (v : LockingRunner) ↦
      v.advisoryLockConnections db = _) names _ rfl
      fun v hv name _ ↦ ?_
    dsimp only [discover]
    split_ifs with hmod
    · exact hv
    · exact hv
    · exact hv
    · have hne : db ≠ name := by
        rintro rfl
        exact h (not_not.mp hmod)
      exact (Function.update_of_ne hne _ _).trans hv
    · exact hv
  let u : LockingRunner := { s with runner := s.runner.expireQuarantines cfg }
  have hthreads : ∀ thread ∈ ((sortedNames p.databaseNames).foldl (discover cfg p) u).runner
      |>.workerThreads, thread.database ≠ db := by
    intro thread hmem hdb
    rw [runner_foldl_discover] at hmem
    have hmem := ((untouched_foldl_discover cfg h _).registered thread hdb).mp hmem
    rw [workerThreads_expireQuarantines] at hmem
    exact hnone thread hmem hdb
  refine List.foldlRecOn (motive := fun (v : LockingRunner) ↦
      v.advisoryLockConnections db = _) _ _
    (hfirst (sortedNames p.databaseNames) u) fun v hv name hname ↦ ?_
  obtain ⟨thread, hmem, rfl⟩ := List.mem_map.mp hname
  unfold hotRemove
  split
  · exact hv
  · exact (Function.update_of_ne (hthreads thread hmem).symm _ _).trans hv

end LockingRunner

section Passes

variable {cfg : RunnerConfig} {p : DiscoveryPass} {s : LockingRunner} {db : String}

theorem not_hasModule_of_answer (h : (p.probe db).answer = none) :
    databaseHasModule (p.probe db) ≠ some true := by
  rw [ne_eq, databaseHasModule_eq_some_true, h]
  exact nofun

/-- Behind a pass, a database without a positive answer has no thread. -/
theorem workerThread_discoverDatabases (h : databaseHasModule (p.probe db) ≠ some true) :
    (s.discoverDatabases cfg p).runner.workerThread db = none := by
  apply workerThread_isNone.mpr
  rintro thread hmem rfl
  rw [LockingRunner.runner_discoverDatabases] at hmem
  have hconfirms := confirms_of_mem_discoverDatabases hmem
  simp only [Discovery.confirms, Bool.and_eq_true, beq_iff_eq] at hconfirms
  exact h hconfirms.2

/-- A look leaves a quarantine as it is exactly if it stays. -/
theorem staysQuarantined_iff {s s' : QueueJobRunner}
    (h : LookedAt cfg db (s.expiryReading db) s s') (hq : db ∈ s.quarantinedDatabases) :
    s'.failureTimestamps db = s.failureTimestamps db ∧
        (db ∈ s'.quarantinedDatabases ↔ db ∈ s.quarantinedDatabases) ↔
      s.StaysQuarantined cfg db := by
  have hall : cfg.remaining (s.expiryReading db) (s.failureTimestamps db) =
      s.failureTimestamps db ↔ ∀ ts ∈ s.failureTimestamps db,
        s.expiryReading db - cfg.failureWindowSeconds * second ≤ ts := by
    simp only [RunnerConfig.remaining, List.filter_eq_self, decide_eq_true_eq]
  rw [h.failureTimestamps, h.quarantined, StaysQuarantined, ← hall, iff_true_right hq]
  apply and_congr_right
  intro heq
  rw [heq]

/-- What a pass changes of a database without a thread and without an answer. -/
theorem keeps_iff (hset : s.runner.quarantinedDatabases.Nodup)
    (h : (p.probe db).answer = none) (hnone : s.runner.workerThread db = none) :
    (s.discoverDatabases cfg p).runner.failureTimestamps db = s.runner.failureTimestamps db ∧
        (db ∈ (s.discoverDatabases cfg p).runner.quarantinedDatabases ↔
          db ∈ s.runner.quarantinedDatabases) ↔
      (db ∈ s.runner.quarantinedDatabases → s.runner.StaysQuarantined cfg db) := by
  have hrest := untouched_discoverDatabases cfg (d := p.toDiscovery)
    (not_hasModule_of_answer h) (workerThread_isNone.mp hnone)
  rw [LockingRunner.runner_discoverDatabases, hrest.listed, hrest.quarantined]
  by_cases hq : db ∈ s.runner.quarantinedDatabases
  · rw [staysQuarantined_iff (lookedAt_expireQuarantines hset hq) hq]
    exact ⟨fun hstays _ ↦ hstays, fun hstays ↦ hstays hq⟩
  · have huntouched := untouched_expireQuarantines cfg hset hq
    exact iff_of_true ⟨huntouched.listed, huntouched.quarantined⟩ fun h ↦ absurd h hq

end Passes

/-- A pass spares the databases whose probe fails exactly if none of them has a worker thread, or
a quarantine that the look at it changes. -/
theorem discoverDatabases_sparesErrors_iff {cfg : RunnerConfig} {p : DiscoveryPass}
    {s : LockingRunner} (hset : s.runner.quarantinedDatabases.Nodup) :
    SparesErrors p s (s.discoverDatabases cfg p) ↔
      ∀ db ∈ p.databaseNames, (p.probe db).answer = none →
        s.runner.workerThread db = none ∧
          (db ∈ s.runner.quarantinedDatabases → s.runner.StaysQuarantined cfg db) := by
  constructor
  · intro h db hdb hanswer
    obtain ⟨hthread, _, hlisted, hquarantined⟩ := h.keeps db hdb hanswer
    have hnone : s.runner.workerThread db = none :=
      hthread.symm.trans (workerThread_discoverDatabases (not_hasModule_of_answer hanswer))
    exact ⟨hnone, (keeps_iff hset hanswer hnone).mp ⟨hlisted, hquarantined⟩⟩
  · intro h
    constructor
    · intro thread hmem _ hstopped
      by_contra hanswer
      obtain ⟨hlisted, hanswer⟩ := not_or.mp hanswer
      have hlisted := not_not.mp hlisted
      rw [LockingRunner.runner_discoverDatabases] at hstopped
      have hconfirms : ¬ p.toDiscovery.confirms thread.database = true :=
        fun hc ↦ hstopped (mem_discoverDatabases hmem hc)
      have hmodule : (p.probe thread.database).answer ≠ some true := by
        intro hyes
        apply hconfirms
        simp [Discovery.confirms, DiscoveryPass.toDiscovery, hlisted,
          databaseHasModule_eq_some_true.mpr hyes]
      have herror : (p.probe thread.database).answer = none := by
        cases ha : (p.probe thread.database).answer with
        | none => rfl
        | some installed =>
          cases installed with
          | true => exact absurd ha hmodule
          | false => exact absurd ha hanswer
      exact workerThread_isNone.mp (h _ hlisted herror).1 thread hmem rfl
    · intro db hdb hanswer
      obtain ⟨hnone, hstays⟩ := h db hdb hanswer
      have hmodule := not_hasModule_of_answer hanswer
      exact ⟨(workerThread_discoverDatabases hmodule).trans hnone.symm,
        LockingRunner.advisoryLock_discoverDatabases hmodule (workerThread_isNone.mp hnone),
        (keeps_iff hset hanswer hnone).mpr hstays⟩

/-- A supervisor that has found 'prod'. -/
def servingProd : LockingRunner :=
  ({ runner := { now := 0 } } : LockingRunner).discoverDatabases {}
    { databaseNames := ["prod"], probe := fun _ ↦ {} }

/-- A refused connection removes a running worker. -/
theorem not_sparesErrors_refused :
    servingProd.runner.workerThread "prod" = some ⟨0, "prod"⟩ ∧
      ¬ SparesErrors { databaseNames := ["prod"], probe := fun _ ↦ { connects := false } }
        servingProd (servingProd.discoverDatabases {}
          { databaseNames := ["prod"], probe := fun _ ↦ { connects := false } }) := by
  constructor
  · decide +kernel
  · intro h
    have hthread := (h.keeps "prod" (by decide) (by decide)).1
    exact absurd hthread (by decide +kernel)

/-- A refused connection to a database without a worker. -/
theorem discoverDatabases_sparesErrors_demo :
    SparesErrors
      { databaseNames := ["demo", "prod"], probe := fun db ↦ { connects := db == "prod" } }
      servingProd (servingProd.discoverDatabases {}
        { databaseNames := ["demo", "prod"], probe := fun db ↦ { connects := db == "prod" } }) := by
  refine (discoverDatabases_sparesErrors_iff (by decide +kernel)).mpr fun db hdb hanswer ↦ ?_
  rcases List.mem_cons.mp hdb with rfl | hdb
  · exact ⟨by decide +kernel, fun hq ↦ absurd hq (by decide +kernel)⟩
  · rw [List.mem_singleton.mp hdb] at hanswer
    exact absurd hanswer (by decide)

end JobWorker
