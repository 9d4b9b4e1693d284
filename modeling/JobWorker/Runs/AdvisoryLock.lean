import JobWorker.Cli.RunnerFleet
import JobWorker.Runs.Quarantine

/-!
# One worker for each database

A runner starts a thread for a database under its advisory lock, and gives the lock back behind
a join that may time out (`job_worker/cli/runner.py:326–417`). A thread that outlives its join
serves without the lock, and beside the thread of the next runner.
-/

namespace JobWorker

open Transition

namespace QueueJobRunner

/-- The threads are as before, but for some that are dead now. -/
structure KeepsThreads (s s' : QueueJobRunner) : Prop where
  registered : s'.workerThreads = s.workerThreads
  started : s'.started = s.started
  dead : ∀ t, s.phase t = .dead → s'.phase t = .dead

/-- A new thread of the database is started, and registered in place of the old one. -/
structure StartsThread (db : String) (s s' : QueueJobRunner) : Prop where
  registered : s'.workerThreads =
    s.workerThreads.filter (·.database != db) ++ [⟨s.nextThread, db⟩]
  started : s'.started = ⟨s.nextThread, db⟩ :: s.started
  phase : s'.phase = s.phase

section Threads

variable {cfg : RunnerConfig} {s s' : QueueJobRunner} {db : String} {thread : WorkerThread}

/-- A step that reads clocks and counts failures. -/
theorem keepsThreads_refl : KeepsThreads s s := ⟨rfl, rfl, fun _ ↦ id⟩

/-- The threads behind a start. -/
theorem StartsThread.mem (h : StartsThread db s s') : thread ∈ s'.workerThreads ↔
    thread ∈ s.workerThreads ∧ thread.database ≠ db ∨ thread = ⟨s.nextThread, db⟩ := by
  simp [h.registered]

/-- Discovery starts a thread where there is none, under the lock. -/
theorem discover_cases (d : Discovery) : KeepsThreads s (s.discover cfg d db) ∨
    d.hasModule db = some true ∧ s.workerThread db = none ∧
      (cfg.useAdvisoryLock → d.advisoryLock db = some true) ∧
      StartsThread db s (s.discover cfg d db) := by
  unfold discover
  split
  · exact .inl keepsThreads_refl
  · next hmodule =>
    split
    · exact .inl keepsThreads_refl
    · next hvacant =>
      split
      · exact .inl keepsThreads_refl
      · next hlock =>
        refine .inr ⟨not_not.mp hmodule, by simpa using hvacant, fun h ↦ ?_, rfl, rfl, rfl⟩
        by_contra hne
        exact hlock ⟨h, hne⟩

/-- The health check starts a thread in place of a dead one. -/
theorem checkThread_cases : KeepsThreads s (s.checkThread cfg db) ∨
    ∃ thread, s.workerThread db = some thread ∧ s.phase thread = .dead ∧
      StartsThread db s (s.checkThread cfg db) := by
  unfold checkThread
  split
  · exact .inl keepsThreads_refl
  split
  · exact .inl keepsThreads_refl
  · next thread hthread =>
    split
    · exact .inl keepsThreads_refl
    · next hphase =>
      split
      · exact .inl keepsThreads_refl
      · obtain ⟨hw, hp, hst, hn⟩ : (s.countDeath cfg thread).workerThreads = s.workerThreads ∧
            (s.countDeath cfg thread).phase = s.phase ∧
            (s.countDeath cfg thread).started = s.started ∧
            (s.countDeath cfg thread).nextThread = s.nextThread := by
          unfold countDeath
          split
          · exact ⟨rfl, rfl, rfl, rfl⟩
          · obtain ⟨t, now, delays, _, _, heq⟩ := addDeath_eq cfg (s := s) thread
            rw [heq]
            exact ⟨rfl, rfl, rfl, rfl⟩
        dsimp only
        split
        · exact .inl ⟨hw, hst, fun t ht ↦ by rwa [hp]⟩
        · have hentry : (s.countDeath cfg thread).workerThread db = some thread := by
            rwa [workerThread, hw]
          obtain ⟨now, delays, _, heq⟩ := restart_eq hentry
          refine .inr ⟨thread, hthread, not_not.mp hphase, ?_, ?_, ?_⟩
          · rw [heq, hw, hn]
          · rw [heq, hst, hn]
          · rw [heq, hp]

theorem keepsThreads_expireQuarantine : KeepsThreads s (s.expireQuarantine cfg db) := by
  obtain ⟨now, delays, _, listed, _, heq⟩ := expireQuarantine_eq cfg (s := s) db
  rw [heq]
  exact ⟨rfl, rfl, fun _ ↦ id⟩

/-- What is no pass of the supervisor starts no thread. -/
theorem keepsThreads_next {a : RunnerAction} (ha : a.isPass = false)
    (h : s.next cfg a = some s') : KeepsThreads s s' := by
  cases a with
  | tick | stop =>
    cases h
    exact ⟨rfl, rfl, fun _ ↦ id⟩
  | crash thread delays =>
    obtain ⟨⟨_, hserving⟩, h⟩ := Option.ite_none_right_eq_some.mp h
    cases h
    obtain ⟨t, now, delays', _, _, heq⟩ := addDeath_eq cfg
      (s := { s with delays, phase := Function.update s.phase thread .crashed }) thread
    refine ⟨by rw [crash, heq], by rw [crash, heq], fun t ht ↦ ?_⟩
    rw [crash, heq]
    have hne : t ≠ thread := by
      rintro rfl
      exact nomatch hserving.symm.trans ht
    exact (Function.update_of_ne hne _ _).trans ht
  | ends thread =>
    obtain ⟨_, h⟩ := Option.ite_none_right_eq_some.mp h
    cases h
    refine ⟨rfl, rfl, fun t ht ↦ ?_⟩
    show Function.update s.phase thread .dead t = .dead
    by_cases heq : t = thread
    · rw [heq, Function.update_self]
    · rwa [Function.update_of_ne heq]
  | discoverDatabases | checkThreadHealth | cleanup => cases ha

end Threads
end QueueJobRunner

open QueueJobRunner

/-- The process in which a step happens. -/
@[simp]
def FleetAction.at : FleetAction → Nat
  | .discover i _ _ _ _ | .stopWorkerThread i _ | .joined i | .checkThread i _ _
  | .expireQuarantine i _ _ | .process i _ | .exit i => i

/-- What a step does to the threads of its process, and to the locks that the process holds. -/
inductive ProcessMove (p : RunnerProcess) (held : Set String) : RunnerProcess → Set String → Prop
  | keeps {p' : RunnerProcess} : KeepsThreads p.runner p'.runner → p'.joining = p.joining →
      ProcessMove p held p' held
  | discovers {p' : RunnerProcess} {db : String} : p.joining = none → p'.joining = none →
      p.runner.workerThread db = none → StartsThread db p.runner p'.runner →
      ProcessMove p held p' (insert db held)
  | restarts {p' : RunnerProcess} {db : String} {thread : WorkerThread} : p.joining = none →
      p'.joining = none → p.runner.workerThread db = some thread →
      p.runner.phase thread = .dead → StartsThread db p.runner p'.runner →
      ProcessMove p held p' held
  | removes {p' : RunnerProcess} {thread : WorkerThread} : p.joining = none →
      p.runner.workerThread thread.database = some thread →
      p' = ⟨p.runner.forgetThread thread.database, some thread⟩ → ProcessMove p held p' held
  | joins {p' : RunnerProcess} {thread : WorkerThread} : p.joining = some thread →
      p' = ⟨p.runner.finishStop thread.database, none⟩ →
      ProcessMove p held p' (held \ {thread.database})
  | exits {p' : RunnerProcess} : p'.runner.started = [] → p'.runner.workerThreads = [] →
      p'.joining = none → ProcessMove p held p' ∅

/-- What the supervisor of a process knows of the threads and of the locks. -/
structure ProcessSound (p : RunnerProcess) (held : Set String) : Prop where
  roster : Roster p.runner
  locked : ∀ t ∈ p.runner.workerThreads, t.database ∈ held
  joined : ∀ t, p.joining = some t →
    t ∈ p.runner.started ∧ p.runner.workerThread t.database = none ∧ t.database ∈ held

/-- Every thread that has not ended is registered, or is being joined. -/
def RunnerProcess.Attended (p : RunnerProcess) : Prop :=
  ∀ t ∈ p.runner.started, p.runner.phase t ≠ .dead →
    t ∈ p.runner.workerThreads ∨ p.joining = some t

section Process

variable {p p' : RunnerProcess} {held held' : Set String}

/-- A database has a thread that is registered, or none. -/
theorem QueueJobRunner.workerThread_eq_none {s : QueueJobRunner} {db : String} :
    s.workerThread db = none ↔ ∀ t ∈ s.workerThreads, t.database ≠ db := by
  simp [workerThread]

/-- Threads are registered under their lock, and joined under it. -/
theorem ProcessSound.move (h : ProcessSound p held) (hr : Roster p'.runner)
    (hm : ProcessMove p held p' held') : ProcessSound p' held' := by
  cases hm with
  | keeps hk hj =>
    refine ⟨hr, ?_, fun t ht ↦ ?_⟩
    · rw [hk.registered]
      exact h.locked
    · obtain ⟨hst, hvacant, hheld⟩ := h.joined t (hj ▸ ht)
      refine ⟨hk.started ▸ hst, ?_, hheld⟩
      rwa [workerThread, hk.registered]
  | @discovers db _ hidle _ hs =>
    refine ⟨hr, fun t ht ↦ ?_, fun t ht ↦ by simp [hidle] at ht⟩
    rcases hs.mem.mp ht with ⟨ht, _⟩ | rfl
    · exact .inr (h.locked t ht)
    · exact .inl rfl
  | @restarts db thread _ hidle hthread _ hs =>
    refine ⟨hr, fun t ht ↦ ?_, fun t ht ↦ by simp [hidle] at ht⟩
    rcases hs.mem.mp ht with ⟨ht, _⟩ | rfl
    · exact h.locked t ht
    · obtain ⟨hw, hdb⟩ := workerThread_eq_some hthread
      exact hdb ▸ h.locked thread hw
  | @removes thread _ hthread hp =>
    subst hp
    obtain ⟨hw, _⟩ := workerThread_eq_some hthread
    have hregistered : (p.runner.forgetThread thread.database).workerThreads =
        p.runner.workerThreads.filter (·.database != thread.database) := by
      simp [forgetThread, hthread]
    refine ⟨hr, fun t ht ↦ ?_, fun t ht ↦ ?_⟩
    · rw [hregistered] at ht
      exact h.locked t (List.mem_of_mem_filter ht)
    · cases ht
      refine ⟨?_, ?_, h.locked thread hw⟩
      · simpa [forgetThread, hthread] using h.roster.registered thread hw
      · rw [workerThread_eq_none]
        simp [hregistered]
  | @joins thread hj hp =>
    subst hp
    obtain ⟨_, hvacant, _⟩ := h.joined thread hj
    refine ⟨hr, fun t ht ↦ ⟨h.locked t ht, ?_⟩, fun _ ht ↦ by cases ht⟩
    exact workerThread_eq_none.mp hvacant t ht
  | exits _ hw hidle =>
    refine ⟨hr, ?_, ?_⟩
    · simp [hw]
    · simp [hidle]

/-- A thread is started for a database without a live one. -/
theorem RunnerProcess.Attended.starts {db : String} (h : p.Attended) (hidle : p.joining = none)
    (hs : StartsThread db p.runner p'.runner)
    (hvacant : ∀ t ∈ p.runner.workerThreads, p.runner.phase t ≠ .dead → t.database ≠ db) :
    p'.Attended := by
  intro t hst hlive
  rw [hs.started] at hst
  rw [hs.phase] at hlive
  refine .inl (hs.mem.mpr ?_)
  rcases List.mem_cons.mp hst with rfl | hst
  · exact .inr rfl
  · have ht := (h t hst hlive).resolve_right (by simp [hidle])
    exact .inl ⟨ht, hvacant t ht hlive⟩

/-- A thread is let go when the join behind it has ended, or the process has. -/
theorem RunnerProcess.Attended.move (h : p.Attended) (hs : ProcessSound p held)
    (hm : ProcessMove p held p' held')
    (hjoin : ∀ t ∈ p'.runner.started, p'.joining = none → p.joining = some t →
      p.runner.phase t = .dead) : p'.Attended := by
  cases hm with
  | keeps hk hj =>
    intro t hst hlive
    rw [hk.started] at hst
    rw [hk.registered, hj]
    exact h t hst fun hdead ↦ hlive (hk.dead t hdead)
  | discovers hidle _ hvacant hstarts =>
    exact h.starts hidle hstarts fun t ht _ ↦ workerThread_eq_none.mp hvacant t ht
  | restarts hidle _ hthread hdead hstarts =>
    refine h.starts hidle hstarts fun t ht hlive hdb ↦ hlive ?_
    -- Only the dead thread was registered for the database.
    have hsame := workerThread_of_mem hs.roster ht
    rw [hdb, hthread] at hsame
    cases hsame
    exact hdead
  | @removes thread hidle hthread hp =>
    subst hp
    intro t hst hlive
    have hst : t ∈ p.runner.started := by simpa [forgetThread, hthread] using hst
    have hlive : p.runner.phase t ≠ .dead := by simpa [forgetThread, hthread] using hlive
    have ht := (h t hst hlive).resolve_right (by simp [hidle])
    by_cases hdb : t.database = thread.database
    · have hsame := workerThread_of_mem hs.roster ht
      rw [hdb, hthread] at hsame
      exact .inr hsame
    · refine .inl ?_
      show t ∈ (p.runner.forgetThread thread.database).workerThreads
      simp [forgetThread, hthread, ht, hdb]
  | @joins thread hj hp =>
    subst hp
    intro t hst hlive
    refine .inl ((h t hst hlive).resolve_right fun ht ↦ hlive ?_)
    exact hjoin t hst rfl ht
  | exits hst' _ _ =>
    intro t hst
    rw [hst'] at hst
    cases hst

end Process

namespace RunnerFleet

/-- The locks of a process. -/
def held (f : RunnerFleet) (i : Nat) : Set String := {db | f.locks.Holds i db}

/-- The locks are in order, and every process knows its threads. -/
structure Sound (f : RunnerFleet) : Prop where
  locks : f.locks.Sound
  processes : ∀ i, ProcessSound (f.processes i) (f.held i)

/-- What a step does to the fleet. -/
structure Moved (f : RunnerFleet) (i : Nat) (f' : RunnerFleet) : Prop where
  locks : f'.locks.Sound
  others : ∀ j, j ≠ i → f'.processes j = f.processes j ∧ f'.held j = f.held j
  roster : Roster (f'.processes i).runner
  move : ProcessMove (f.processes i) (f.held i) (f'.processes i) (f'.held i)

section Fleet

variable {cfg : RunnerConfig} {f f' : RunnerFleet} {i j : Nat}

@[simp]
theorem set_self (p : RunnerProcess) : (f.set i p).processes i = p := Function.update_self _ _ _

theorem set_of_ne (p : RunnerProcess) (h : j ≠ i) :
    (f.set i p).processes j = f.processes j := Function.update_of_ne h _ _

/-- A step that leaves the locks alone. -/
theorem moved_set {p : RunnerProcess} (hs : f.Sound) (hr : Roster p.runner)
    (hm : ProcessMove (f.processes i) (f.held i) p (f.held i)) : f.Moved i (f.set i p) := by
  refine ⟨hs.locks, fun j hj ↦ ⟨set_of_ne p hj, rfl⟩, ?_, ?_⟩
  · rwa [set_self]
  · rwa [set_self]

/-- A step behind which the process holds other locks. -/
theorem moved_locks {p : RunnerProcess} {locks : SessionLocks Nat String} (held : Set String)
    (hlocks : locks.Sound) (hothers : ∀ j, j ≠ i → ∀ db, locks.Holds j db ↔ f.locks.Holds j db)
    (hown : ∀ db, locks.Holds i db ↔ db ∈ held) (hr : Roster p.runner)
    (hm : ProcessMove (f.processes i) (f.held i) p held) :
    f.Moved i { f.set i p with locks } := by
  refine ⟨hlocks, fun j hj ↦ ⟨set_of_ne p hj, Set.ext (hothers j hj)⟩, ?_, ?_⟩
  · simpa using hr
  · have hheld : ({ f.set i p with locks } : RunnerFleet).held i = held := Set.ext hown
    rw [hheld]
    simpa using hm

/-- A round of discovery takes the lock of the database before it starts a thread. -/
theorem moved_discover (hlock : cfg.useAdvisoryLock = true) (hs : f.Sound) {db : String}
    {hasModule : Option Bool} {connects : Bool} {delays : List Nat}
    (hidle : (f.processes i).joining = none) :
    f.Moved i (f.discover cfg i db hasModule connects delays) := by
  let s : QueueJobRunner := { (f.processes i).runner with delays }
  have hr : Roster s := (hs.processes i).roster.quiet _ _ _ _
  have hround (lock : Bool) : Roster (s.discover cfg ⟨[db], fun _ ↦ hasModule,
      fun _ ↦ some lock⟩ db) := hr.discover _ db
  -- Without the lock the round starts nothing.
  have hwithout : f.Moved i (f.discoverWith cfg i db hasModule false delays) := by
    refine moved_set hs (hround false) (.keeps ?_ hidle.symm)
    have hkeeps : KeepsThreads s
        (s.discover cfg ⟨[db], fun _ ↦ hasModule, fun _ ↦ some false⟩ db) :=
      (discover_cases _).resolve_right fun h ↦ absurd (h.2.2.1 hlock) (by simp)
    exact ⟨hkeeps.registered, hkeeps.started, hkeeps.dead⟩
  unfold discover
  dsimp only
  split
  · next htries =>
    split
    · next locks htry =>
      have hholds (j : Nat) (q : String) := SessionLocks.holds_tryLock hs.locks htry (j := j)
        (q := q)
      refine moved_locks (insert db (f.held i)) (hs.locks.tryLock htry) (fun j hj q ↦ ?_)
        (fun q ↦ ?_) (hround true) ?_
      · simp [hholds, hj]
      · simp [hholds, held]
      · have hvacant : s.workerThread db = none := htries.2.1
        have hround : s.discover cfg ⟨[db], fun _ ↦ hasModule, fun _ ↦ some true⟩ db =
            s.elapse.startWorkerThread db := by
          simp [QueueJobRunner.discover, htries.1, hvacant]
        have hstarts : StartsThread db s
            (s.discover cfg ⟨[db], fun _ ↦ hasModule, fun _ ↦ some true⟩ db) := by
          rw [hround]
          exact ⟨rfl, rfl, rfl⟩
        exact .discovers hidle rfl hvacant ⟨hstarts.registered, hstarts.started, hstarts.phase⟩
    · exact hwithout
  · exact hwithout

/-- What a step can do to the fleet. -/
theorem moved_next {a : FleetAction} (hlock : cfg.useAdvisoryLock = true) (hs : f.Sound)
    (h : f.next cfg a = some f') : f.Moved a.at f' := by
  cases a with
  | discover i db hasModule connects delays =>
    obtain ⟨hidle, h⟩ := Option.ite_none_right_eq_some.mp h
    cases h
    exact moved_discover hlock hs hidle
  | stopWorkerThread i db =>
    obtain ⟨hidle, h⟩ := Option.ite_none_right_eq_some.mp h
    obtain ⟨thread, hthread, heq⟩ := Option.map_eq_some_iff.mp h
    cases heq
    obtain ⟨_, rfl⟩ := workerThread_eq_some hthread
    exact moved_set hs ((hs.processes i).roster.forget _) (.removes hidle hthread rfl)
  | joined i =>
    obtain ⟨thread, hjoin, heq⟩ := Option.map_eq_some_iff.mp h
    cases heq
    have hr : Roster ((f.processes i).runner.finishStop thread.database) :=
      (hs.processes i).roster.quiet _ _ _ _
    refine moved_locks _ hs.locks.close (fun j hj db ↦ ?_) (fun db ↦ ?_) hr (.joins hjoin rfl)
    · have hj : j ≠ i := hj
      simp [SessionLocks.holds_close hs.locks, hj]
    · simp [SessionLocks.holds_close hs.locks, held]
  | checkThread i db delays =>
    obtain ⟨hidle, h⟩ := Option.ite_none_right_eq_some.mp h
    cases h
    let s : QueueJobRunner := { (f.processes i).runner with delays }
    have hr : Roster s := (hs.processes i).roster.quiet _ _ _ _
    refine moved_set hs (hr.checkThread db) ?_
    rcases checkThread_cases (s := s) with hk | ⟨thread, hthread, hdead, hstarts⟩
    · exact .keeps ⟨hk.registered, hk.started, hk.dead⟩ hidle.symm
    · exact .restarts hidle rfl hthread hdead
        ⟨hstarts.registered, hstarts.started, hstarts.phase⟩
  | expireQuarantine i db delays =>
    obtain ⟨hidle, h⟩ := Option.ite_none_right_eq_some.mp h
    cases h
    let s : QueueJobRunner := { (f.processes i).runner with delays }
    have hr : Roster s := (hs.processes i).roster.quiet _ _ _ _
    have hk : KeepsThreads s (s.expireQuarantine cfg db) := keepsThreads_expireQuarantine
    exact moved_set hs (hr.expireQuarantine db)
      (.keeps ⟨hk.registered, hk.started, hk.dead⟩ hidle.symm)
  | process i a =>
    obtain ⟨ha, h⟩ := Option.ite_none_left_eq_some.mp h
    obtain ⟨s, hnext, heq⟩ := Option.map_eq_some_iff.mp h
    cases heq
    have hk := keepsThreads_next (Bool.eq_false_iff.mpr ha) hnext
    exact moved_set hs (roster_next hnext (hs.processes i).roster) (.keeps hk rfl)
  | exit i =>
    cases h
    refine moved_locks _ hs.locks.closeAll (fun j hj db ↦ ?_) (fun db ↦ ?_) ?_
      (.exits rfl rfl rfl)
    · have hj : j ≠ i := hj
      simp [SessionLocks.holds_closeAll hs.locks, hj]
    · simp [SessionLocks.holds_closeAll hs.locks]
    · exact ⟨nofun, fun _ _ ↦ rfl, nofun, nofun, nofun, nofun, .nil⟩

/-- Every step keeps the fleet sound. -/
theorem Sound.moved (hs : f.Sound) (hm : f.Moved i f') : f'.Sound := by
  refine ⟨hm.locks, fun j ↦ ?_⟩
  by_cases hj : j = i
  · subst hj
    exact (hs.processes j).move hm.roster hm.move
  · obtain ⟨hp, hheld⟩ := hm.others j hj
    rw [hp, hheld]
    exact hs.processes j

/-- No process has threads or locks at the start. -/
theorem sound_starts (h : f.Starts) : f.Sound := by
  obtain ⟨now, rfl⟩ := h
  refine ⟨SessionLocks.sound_empty, fun i ↦ ⟨?_, nofun, nofun⟩⟩
  exact ⟨nofun, fun _ _ ↦ rfl, nofun, nofun, nofun, nofun, .nil⟩

/-- The fleet is sound in every state of a run. -/
theorem sound {past : List (RunnerFleet × FleetAction)} (hlock : cfg.useAdvisoryLock = true)
    (h : Run cfg past f) : f.Sound :=
  h.always (fun _ ↦ sound_starts) fun _ _ _ hs hnext ↦ hs.moved (moved_next hlock hs hnext)

end Fleet

/-- A join of `_stop_worker_thread` has ended because its thread has. -/
def JoinsInTime (f : RunnerFleet) : FleetAction → Prop
  | .joined i => ∀ t ∈ (f.processes i).joining, (f.processes i).runner.phase t = .dead
  | _ => True

instance (f : RunnerFleet) : (a : FleetAction) → Decidable (JoinsInTime f a)
  | .joined i =>
    inferInstanceAs (Decidable (∀ t ∈ (f.processes i).joining,
      (f.processes i).runner.phase t = .dead))
  | .discover _ _ _ _ _ | .stopWorkerThread _ _ | .checkThread _ _ _
  | .expireQuarantine _ _ _ | .process _ _ | .exit _ => .isTrue trivial

/-- A live thread has the lock of its database, and no other live thread serves it. -/
structure OneLiveWorker (f : RunnerFleet) : Prop where
  locked : ∀ i t, f.Live i t → f.locks.Holds i t.database
  single : ∀ i j t u, f.Live i t → f.Live j u → t.database = u.database → i = j ∧ t = u

section LiveWorkers

variable {cfg : RunnerConfig} {f f' : RunnerFleet} {a : FleetAction}

/-- Live threads that are registered or joined are one for each database. -/
theorem OneLiveWorker.of_attended (hs : f.Sound) (h : ∀ i, (f.processes i).Attended) :
    OneLiveWorker f := by
  have hlocked (i : Nat) (t : WorkerThread) (ht : f.Live i t) : f.locks.Holds i t.database := by
    rcases h i t ht.1 ht.2 with hw | hj
    · exact (hs.processes i).locked t hw
    · exact ((hs.processes i).joined t hj).2.2
  refine ⟨hlocked, fun i j t u ht hu hdb ↦ ?_⟩
  -- Both processes would hold the lock.
  obtain rfl : i = j := (hlocked i t ht).unique hs.locks (hdb ▸ hlocked j u hu)
  refine ⟨rfl, ?_⟩
  -- A thread that is joined has left no other entry for its database.
  have hjoined {v w : WorkerThread} (hv : (f.processes i).joining = some v)
      (hw : w ∈ (f.processes i).runner.workerThreads) : w.database ≠ v.database :=
    workerThread_eq_none.mp ((hs.processes i).joined v hv).2.1 w hw
  rcases h i t ht.1 ht.2 with htw | htj <;> rcases h i u hu.1 hu.2 with huw | huj
  · exact (hs.processes i).roster.unique t htw u huw hdb
  · exact absurd hdb (hjoined huj htw)
  · exact absurd hdb.symm (hjoined htj huw)
  · exact Option.some.inj (htj.symm.trans huj)

/-- Joins that end in time leave no thread unattended. -/
theorem attended_next (hlock : cfg.useAdvisoryLock = true) (hs : f.Sound)
    (h : ∀ i, (f.processes i).Attended) (hjoin : JoinsInTime f a) (hnext : f.next cfg a = some f')
    (i : Nat) : (f'.processes i).Attended := by
  have hm := moved_next hlock hs hnext
  by_cases hi : i = a.at
  · subst hi
    refine (h _).move (hs.processes _) hm.move fun t ht hidle hj ↦ ?_
    cases a with
    | joined i => exact hjoin t hj
    | exit i =>
      cases hnext
      simp at ht
    | discover | stopWorkerThread | checkThread | expireQuarantine =>
      obtain ⟨hnone, _⟩ := Option.ite_none_right_eq_some.mp hnext
      exact nomatch hnone.symm.trans hj
    | process i a =>
      obtain ⟨_, h⟩ := Option.ite_none_left_eq_some.mp hnext
      obtain ⟨s, _, heq⟩ := Option.map_eq_some_iff.mp h
      cases heq
      simp [show (f.processes i).joining = some t from hj] at hidle
  · rw [(hm.others i hi).1]
    exact h i

/-- A thread that outlives its join serves without the lock. -/
theorem not_oneLiveWorker_of_joined {i : Nat} {t : WorkerThread} (hs : f.Sound)
    (hjoin : (f.processes i).joining = some t) (hlive : (f.processes i).runner.phase t ≠ .dead)
    (hnext : f.next cfg (.joined i) = some f') : ¬ OneLiveWorker f' := by
  obtain ⟨thread, hj, heq⟩ := Option.map_eq_some_iff.mp hnext
  obtain rfl := Option.some.inj (hjoin.symm.trans hj)
  cases heq
  intro h
  have hheld := h.locked i t ⟨?_, ?_⟩
  · exact ((SessionLocks.holds_close hs.locks).mp hheld).2 ⟨rfl, rfl⟩
  · simpa [QueueJobRunner.finishStop] using ((hs.processes i).joined t hjoin).1
  · simpa [QueueJobRunner.finishStop] using hlive

/-- Under the advisory locks, live threads have the lock of their database and are the only
ones to serve it, if and only if every join of a removed thread ends with the thread. -/
theorem oneLiveWorker_iff {past : List (RunnerFleet × FleetAction)}
    (hlock : cfg.useAdvisoryLock = true) (h : Run cfg past f) :
    (∀ u ∈ states past f, OneLiveWorker u) ↔ Guarded JoinsInTime past := by
  constructor
  · rintro hall ⟨v, a⟩ hp
    obtain ⟨u, hu, hnext⟩ := h.after hp
    obtain ⟨past', hbefore⟩ := h.before hp
    cases a with
    | joined i =>
      intro t hjoin
      by_contra hlive
      exact not_oneLiveWorker_of_joined (sound hlock hbefore) hjoin hlive hnext (hall u hu)
    | _ => exact trivial
  · intro hg u hu
    have hinv : u.Sound ∧ ∀ i, (u.processes i).Attended := by
      refine h.invariant_states hg (P := fun u ↦ u.Sound ∧ ∀ i, (u.processes i).Attended) ?_ ?_
        u hu
      · rintro u hu
        refine ⟨sound_starts hu, ?_⟩
        obtain ⟨now, rfl⟩ := hu
        exact fun i t ht ↦ nomatch ht
      · rintro u a u' ⟨hs, hatt⟩ ha hnext
        exact ⟨hs.moved (moved_next hlock hs hnext), attended_next hlock hs hatt ha hnext⟩
    exact .of_attended hinv.1 hinv.2

/-- A fleet of runners at time zero. -/
def idleFleet : RunnerFleet := { processes := fun _ ↦ ⟨{ now := 0 }, none⟩ }

/-- Two runners find a database, and the one that has its lock removes it; the other finds it
again. -/
def handsOver (ends : List FleetAction) : List FleetAction :=
  [.discover 0 "prod" (some true) true [], .discover 1 "prod" (some true) true [],
    .stopWorkerThread 0 "prod"] ++ ends ++
  [.joined 0, .discover 1 "prod" (some true) true []]

/-- A script of the fleet is a run. -/
theorem run_replay {l : List FleetAction} {past : List (RunnerFleet × FleetAction)}
    (h : replay (next cfg) idleFleet l = some (past, f)) : Run cfg past f :=
  Run.of_replay id ⟨fun _ ↦ 0, rfl⟩ h

/-- The thread of the first runner ends before its join, and the second runner serves alone. -/
theorem oneLiveWorker_handsOver : ∃ past f, Run {} past f ∧ f.Live 1 ⟨0, "prod"⟩ ∧
    ∀ u ∈ states past f, OneLiveWorker u := by
  have hrun : (replay (next {}) idleFleet (handsOver [.process 0 (.ends ⟨0, "prod"⟩)])).any
      (fun r ↦ decide ((∀ p ∈ r.1, JoinsInTime p.1 p.2) ∧
        ⟨0, "prod"⟩ ∈ (r.2.processes 1).runner.started ∧
        (r.2.processes 1).runner.phase ⟨0, "prod"⟩ ≠ .dead)) = true := by decide +kernel
  obtain ⟨⟨past, f⟩, hs, hrun⟩ := (Option.any_eq_true _ _).mp hrun
  obtain ⟨hg, hlive⟩ := of_decide_eq_true hrun
  exact ⟨past, f, run_replay hs, hlive, (oneLiveWorker_iff rfl (run_replay hs)).mpr hg⟩

/-- The thread of the first runner outlives its join, and both runners serve the database. -/
theorem not_oneLiveWorker_handsOver : ∃ past f, Run {} past f ∧ f.Live 0 ⟨0, "prod"⟩ ∧
    f.Live 1 ⟨0, "prod"⟩ ∧ ¬ f.locks.Holds 0 "prod" ∧ ¬ OneLiveWorker f := by
  have hrun : (replay (next {}) idleFleet (handsOver [])).any (fun r ↦
      decide (⟨0, "prod"⟩ ∈ (r.2.processes 0).runner.started ∧
        (r.2.processes 0).runner.phase ⟨0, "prod"⟩ ≠ .dead ∧
        ⟨0, "prod"⟩ ∈ (r.2.processes 1).runner.started ∧
        (r.2.processes 1).runner.phase ⟨0, "prod"⟩ ≠ .dead ∧
        r.2.locks.session 0 "prod" = none)) = true := by decide +kernel
  obtain ⟨⟨past, f⟩, hs, hrun⟩ := (Option.any_eq_true _ _).mp hrun
  obtain ⟨hst, hlive, hst', hlive', hsession⟩ := of_decide_eq_true hrun
  refine ⟨past, f, run_replay hs, ⟨hst, hlive⟩, ⟨hst', hlive'⟩, ?_, fun h ↦ ?_⟩
  · rintro ⟨c, hc, _⟩
    exact nomatch hsession.symm.trans hc
  · exact absurd (h.single 0 1 _ _ ⟨hst, hlive⟩ ⟨hst', hlive'⟩ rfl).1 (by decide)

end LiveWorkers
end RunnerFleet
end JobWorker
