import JobWorker.Cli.ThreadTarget
import JobWorker.Runs.AdvisoryLock

/-!
# The watchdog and the running worker

The entries of a worker thread stand under the name of its database, and a thread that has been
removed may still be there when the next one runs (`job_worker/cli/runner.py:359–481,738–840`).
Its `finally` block looks whether the gate is its own, but not whether the other entries are.
-/

namespace JobWorker

open Transition QueueJobRunner Function

namespace ThreadEvent

/-- The worker instance of the database behind a step of its thread. -/
def instanceBehind (t : WorkerThread) (worker : Option WorkerThread) :
    ThreadEvent → Option WorkerThread
  | .publishes => some t
  | .dropsInstance => none
  | .registersGate | .tries | .load _ | .returns | .raises | .crashes _ | .dropsRetry | .ends =>
    worker

/-- The retry entry of the database behind a step of its thread. -/
def retrySinceBehind (now : Time) (since : Option Time) : ThreadEvent → Option Time
  | .load .databaseError => since <|> some now
  | .load .loaded | .dropsRetry => none
  | .load .stopped | .load .raised | .registersGate | .tries | .publishes | .returns | .raises
  | .crashes _ | .dropsInstance | .ends => since

/-- The step writes or removes a worker instance. -/
def setsInstance : ThreadEvent → Bool
  | .publishes | .dropsInstance => true
  | .registersGate | .tries | .load _ | .returns | .raises | .crashes _ | .dropsRetry | .ends =>
    false

/-- The step removes a retry entry. -/
def dropsRetrySince : ThreadEvent → Bool
  | .load .loaded | .dropsRetry => true
  | .load .databaseError | .load .stopped | .load .raised | .registersGate | .tries | .publishes
  | .returns | .raises | .crashes _ | .dropsInstance | .ends => false

variable {t : WorkerThread} {now since : Time} {worker : Option WorkerThread} {e : ThreadEvent}

theorem instanceBehind_of_not (h : e.setsInstance = false) :
    e.instanceBehind t worker = worker := by
  cases e <;> first | rfl | cases h

/-- No other worker stands behind a step that writes or removes one. -/
theorem instanceBehind_ne {u : WorkerThread} (h : e.setsInstance = true) (hne : t ≠ u) :
    e.instanceBehind u worker ≠ some t := by
  cases e with
  | publishes =>
    intro heq
    cases heq
    exact hne rfl
  | dropsInstance => nofun
  | _ => cases h

theorem retrySinceBehind_of_drops {since : Option Time} (h : e.dropsRetrySince = true) :
    e.retrySinceBehind now since = none := by
  cases e with
  | load round => cases round <;> first | rfl | cases h
  | _ => first | rfl | cases h

/-- An entry that is not removed stays as it is. -/
theorem retrySinceBehind_of_not (h : e.dropsRetrySince = false) :
    e.retrySinceBehind now (some since) = some since := by
  cases e with
  | load round => cases round <;> first | rfl | cases h
  | _ => first | rfl | cases h

end ThreadEvent

namespace WatchedRunner

/-- One more database error of the thread is its first, and it waits to try again. -/
def beginsRetries (load : RegistryLoadConfig) (s : WatchedRunner) (t : WorkerThread) : Bool :=
  match s.point t with
  | .loading attempt none _ => (registryLoadDelay load attempt).isSome
  | _ => false

/-- What a step of a thread does to the runner. -/
structure ThreadMove (load : RegistryLoadConfig) (s : WatchedRunner) (t : WorkerThread)
    (e : ThreadEvent) (s' : WatchedRunner) : Prop where
  threads : KeepsThreads s.runner s'.runner
  roster : Roster s.runner → Roster s'.runner
  joining : s'.joining = s.joining
  others : ∀ u, u ≠ t → s'.point u = s.point u
  instances : s'.workerInstances = update s.workerInstances t.database
    (e.instanceBehind t (s.workerInstances t.database))
  retrySince : s'.registryLoadRetrySince = update s.registryLoadRetrySince t.database
    (e.retrySinceBehind s.runner.now (s.registryLoadRetrySince t.database))
  running : s'.point t = .running → e = .publishes
  retrying : ∀ since, (s'.point t).retrySince = some since → e.dropsRetrySince = false ∧
    ((s.point t).retrySince = some since ∨
      e = .load .databaseError ∧ s.beginsRetries load t = true ∧ since = s.runner.now)

section Moves

variable {cfg : RunnerConfig} {load : RegistryLoadConfig} {s s' : WatchedRunner}
  {t : WorkerThread} {e : ThreadEvent} {a : WatchAction}

@[simp]
theorem point_goto (p : ThreadPoint) : (s.goto t p).point t = p := update_self _ _ _

theorem point_goto_of_ne {u : WorkerThread} (h : u ≠ t) (p : ThreadPoint) :
    (s.goto t p).point u = s.point u := update_of_ne h _ _

/-- A step that leaves the entries alone. -/
theorem threadMove_goto {p : ThreadPoint} (hi : e.setsInstance = false)
    (hr : ∀ since, e.retrySinceBehind s.runner.now since = since) (hp : p ≠ .running)
    (hretry : ∀ since, p.retrySince = some since → e.dropsRetrySince = false ∧
      (s.point t).retrySince = some since) : ThreadMove load s t e (s.goto t p) := by
  refine ⟨keepsThreads_refl, id, rfl, fun u hu ↦ point_goto_of_ne hu p, ?_, ?_, ?_, ?_⟩
  · rw [ThreadEvent.instanceBehind_of_not hi, update_eq_self]
    rfl
  · rw [hr, update_eq_self]
    rfl
  · rw [point_goto]
    exact fun h ↦ absurd h hp
  · rw [point_goto]
    exact fun since h ↦ (hretry since h).imp_right .inl

/-- A step that changes the runner besides, or a gate. -/
theorem ThreadMove.setRunner {u : WatchedRunner} {runner : QueueJobRunner}
    {gates : String → Option WorkerThread} (hm : ThreadMove load s t e u)
    (hk : KeepsThreads s.runner runner) (hr : Roster s.runner → Roster runner) :
    ThreadMove load s t e { u with runner, upgradeGates := gates } :=
  ⟨hk, hr, hm.joining, hm.others, hm.instances, hm.retrySince, hm.running, hm.retrying⟩

/-- A round of the registry load. -/
theorem threadMove_loadRegistry {attempt : Nat} {since : Option Time} {tries : Bool}
    (round : LoadRound) (hp : s.point t = .loading attempt since tries) :
    ThreadMove load s t (.load round) (s.loadRegistry load t attempt since round) := by
  cases round with
  | stopped | raised => exact threadMove_goto rfl (fun _ ↦ rfl) nofun nofun
  | loaded =>
    refine ⟨keepsThreads_refl, id, rfl, fun u hu ↦ point_goto_of_ne hu _, ?_, rfl, ?_, ?_⟩
    · exact (update_eq_self _ _).symm
    · simp [loadRegistry, loadRound]
    · simp [loadRegistry, loadRound, ThreadPoint.retrySince]
  | databaseError =>
    unfold loadRegistry loadRound
    dsimp only
    -- The thread waits to try again, or raises where no wait can be computed.
    split
    · next attempt' hround =>
      refine ⟨keepsThreads_refl, id, rfl, fun u hu ↦ point_goto_of_ne hu _, ?_, rfl, ?_, ?_⟩
      · exact (update_eq_self _ _).symm
      · simp
      · rw [point_goto, hp]
        rintro τ hτ
        refine ⟨rfl, ?_⟩
        cases since with
        | none =>
          refine .inr ⟨rfl, ?_, (Option.some.inj hτ).symm⟩
          simp only [beginsRetries, hp]
          by_contra hbears
          simp [hbears] at hround
        | some since => exact .inl hτ
    · next hround => split at hround <;> cases hround
    · next hround => split at hround <;> cases hround
    · refine ⟨keepsThreads_refl, id, rfl, fun u hu ↦ point_goto_of_ne hu _, ?_, rfl, ?_, ?_⟩
      · exact (update_eq_self _ _).symm
      · simp
      · simp [ThreadPoint.retrySince]

/-- A step of a thread. -/
theorem threadMove_next (h : s.next cfg load (.thread t e) = some s') :
    ThreadMove load s t e s' := by
  obtain ⟨_, h⟩ := Option.ite_none_right_eq_some.mp h
  cases e with
  | registersGate =>
    obtain ⟨_, h⟩ := Option.ite_none_right_eq_some.mp h
    cases h
    have hm : ThreadMove load s t .registersGate (s.goto t (.loading 0 none false)) :=
      threadMove_goto rfl (fun _ ↦ rfl) nofun nofun
    exact hm.setRunner keepsThreads_refl id
  | tries =>
    simp only [workerThreadTarget] at h
    split at h
    · next attempt since hp =>
      obtain ⟨_, h⟩ := Option.ite_none_left_eq_some.mp h
      cases h
      exact threadMove_goto rfl (fun _ ↦ rfl) nofun fun u hu ↦ ⟨rfl, by rw [hp]; exact hu⟩
    · cases h
  | load round =>
    simp only [workerThreadTarget] at h
    split at h
    · next attempt since tries hp =>
      obtain ⟨_, h⟩ := Option.ite_none_right_eq_some.mp h
      cases h
      exact threadMove_loadRegistry round hp
    · cases h
  | publishes =>
    obtain ⟨_, h⟩ := Option.ite_none_right_eq_some.mp h
    cases h
    refine ⟨keepsThreads_refl, id, rfl, fun u hu ↦ point_goto_of_ne hu _, rfl, ?_, fun _ ↦ rfl, ?_⟩
    · exact (update_eq_self _ _).symm
    · simp [ThreadPoint.retrySince]
  | returns | raises =>
    obtain ⟨_, h⟩ := Option.ite_none_right_eq_some.mp h
    cases h
    exact threadMove_goto rfl (fun _ ↦ rfl) nofun nofun
  | crashes delays =>
    obtain ⟨_, h⟩ := Option.ite_none_right_eq_some.mp h
    obtain ⟨runner, hnext, heq⟩ := Option.map_eq_some_iff.mp h
    cases heq
    have hm : ThreadMove load s t (.crashes delays) (s.goto t .droppingInstance) :=
      threadMove_goto rfl (fun _ ↦ rfl) nofun nofun
    exact hm.setRunner (keepsThreads_next rfl hnext) (roster_next hnext)
  | dropsInstance =>
    obtain ⟨_, h⟩ := Option.ite_none_right_eq_some.mp h
    cases h
    refine ⟨keepsThreads_refl, id, rfl, fun u hu ↦ point_goto_of_ne hu _, rfl, ?_, ?_, ?_⟩
    · exact (update_eq_self _ _).symm
    · simp
    · simp [ThreadPoint.retrySince]
  | dropsRetry =>
    obtain ⟨_, h⟩ := Option.ite_none_right_eq_some.mp h
    cases h
    refine ⟨keepsThreads_refl, id, rfl, fun u hu ↦ point_goto_of_ne hu _, ?_, rfl, ?_, ?_⟩
    · exact (update_eq_self _ _).symm
    · simp
    · simp [ThreadPoint.retrySince]
  | ends =>
    obtain ⟨_, h⟩ := Option.ite_none_right_eq_some.mp h
    obtain ⟨runner, hnext, heq⟩ := Option.map_eq_some_iff.mp h
    cases heq
    have hm : ThreadMove load s t .ends (s.goto t .dead) :=
      threadMove_goto rfl (fun _ ↦ rfl) nofun nofun
    exact hm.setRunner (keepsThreads_next rfl hnext) (roster_next hnext)

/-- What is known of the threads. -/
structure Known (s : WatchedRunner) : Prop where
  roster : Roster s.runner
  unborn : ∀ t, t ∉ s.runner.started → s.point t = .starting
  joined : ∀ t, s.joining = some t → s.runner.workerThread t.database = none

/-- What a step of the supervisor does to the threads and their entries. -/
structure SupervisorMove (s s' : WatchedRunner) : Prop where
  known : Known s'
  point : s'.point = s.point
  retrySince : s'.registryLoadRetrySince = s.registryLoadRetrySince
  registered : ∀ t ∈ s'.runner.workerThreads,
    t ∈ s.runner.workerThreads ∧ s'.workerInstances t.database = s.workerInstances t.database ∨
      s.point t = .starting

/-- A step that starts no thread. -/
theorem supervisorMove_keeps {runner : QueueJobRunner} (hk : Known s) (hr : Roster runner)
    (h : KeepsThreads s.runner runner) : SupervisorMove s { s with runner } := by
  refine ⟨⟨hr, fun t ht ↦ ?_, fun t ht ↦ ?_⟩, rfl, rfl, fun t ht ↦ .inl ⟨?_, rfl⟩⟩
  · exact hk.unborn t (by rwa [← h.started])
  · show runner.workerThread t.database = none
    rw [workerThread, h.registered]
    exact hk.joined t ht
  · rwa [← h.registered]

/-- A step that starts a thread, and leaves the workers of other databases alone. -/
theorem supervisorMove_starts {runner : QueueJobRunner} {db : String}
    {workers : String → Option WorkerThread} (hk : Known s) (hr : Roster runner)
    (hidle : s.joining = none) (h : StartsThread db s.runner runner)
    (hworkers : ∀ other, other ≠ db → workers other = s.workerInstances other) :
    SupervisorMove s { s with runner, workerInstances := workers } := by
  refine ⟨⟨hr, fun t ht ↦ ?_, fun t ht ↦ ?_⟩, rfl, rfl, fun t ht ↦ ?_⟩
  · exact hk.unborn t fun hst ↦ ht (h.started ▸ List.mem_cons_of_mem _ hst)
  · exact nomatch hidle.symm.trans ht
  · rcases h.mem.mp ht with ⟨ht, hdb⟩ | rfl
    · exact .inl ⟨ht, hworkers _ hdb⟩
    · exact .inr (hk.unborn _ fun hst ↦ Nat.lt_irrefl _ (hk.roster.fresh _ hst))

/-- A step of the supervisor. -/
theorem supervisorMove_next (hk : Known s) (ha : ∀ t e, a ≠ .thread t e)
    (h : s.next cfg load a = some s') : SupervisorMove s s' := by
  have hquiet (delays : List Nat) : Roster { s.runner with delays } := hk.roster.quiet _ _ _ _
  cases a with
  | discover db d delays =>
    obtain ⟨hidle, h⟩ := Option.ite_none_right_eq_some.mp h
    cases h
    let q : QueueJobRunner := { s.runner with delays }
    have hr : Roster (q.discover cfg d db) := (hquiet delays).discover d db
    rcases discover_cases (s := q) d with hkeeps | ⟨_, _, _, hstarts⟩
    · exact supervisorMove_keeps hk hr ⟨hkeeps.registered, hkeeps.started, hkeeps.dead⟩
    · exact supervisorMove_starts hk hr hidle
        ⟨hstarts.registered, hstarts.started, hstarts.phase⟩ fun _ _ ↦ rfl
  | stopWorkerThread db =>
    obtain ⟨_, h⟩ := Option.ite_none_right_eq_some.mp h
    obtain ⟨thread, hthread, heq⟩ := Option.map_eq_some_iff.mp h
    cases heq
    obtain ⟨_, rfl⟩ := workerThread_eq_some hthread
    refine ⟨⟨hk.roster.forget _, fun t ht ↦ hk.unborn t ?_, fun t ht ↦ ?_⟩, rfl, rfl,
      fun t ht ↦ .inl ⟨?_, rfl⟩⟩
    · simpa [forgetThread, hthread] using ht
    · cases ht
      simp [workerThread_eq_none, forgetThread, hthread]
    · have ht : t ∈ (s.runner.forgetThread thread.database).workerThreads := ht
      rw [forgetThread, hthread] at ht
      exact List.mem_of_mem_filter ht
  | joined =>
    obtain ⟨thread, hjoin, heq⟩ := Option.map_eq_some_iff.mp h
    cases heq
    refine ⟨⟨hk.roster.quiet _ _ _ _, hk.unborn, fun _ hj ↦ by cases hj⟩, rfl, rfl,
      fun t ht ↦ .inl ⟨ht, ?_⟩⟩
    exact update_of_ne (workerThread_eq_none.mp (hk.joined thread hjoin) t ht) _ _
  | checkThread db delays =>
    obtain ⟨hidle, h⟩ := Option.ite_none_right_eq_some.mp h
    cases h
    let q : QueueJobRunner := { s.runner with delays }
    have hr : Roster (q.checkThread cfg db) := (hquiet delays).checkThread db
    rcases checkThread_cases (s := q) with hkeeps | ⟨_, _, _, hstarts⟩
    · have hsame : (q.checkThread cfg db).workerThread db = s.runner.workerThread db := by
        rw [workerThread, hkeeps.registered]
        rfl
      rw [if_pos hsame]
      exact supervisorMove_keeps hk hr ⟨hkeeps.registered, hkeeps.started, hkeeps.dead⟩
    · refine supervisorMove_starts hk hr hidle
        ⟨hstarts.registered, hstarts.started, hstarts.phase⟩ fun other hother ↦ ?_
      split
      · rfl
      · exact update_of_ne hother _ _
  | expireQuarantine db delays =>
    obtain ⟨_, h⟩ := Option.ite_none_right_eq_some.mp h
    cases h
    let q : QueueJobRunner := { s.runner with delays }
    have hkeeps : KeepsThreads q (q.expireQuarantine cfg db) := keepsThreads_expireQuarantine
    exact supervisorMove_keeps hk ((hquiet delays).expireQuarantine db)
      ⟨hkeeps.registered, hkeeps.started, hkeeps.dead⟩
  | tick elapsed =>
    have hnext : s.runner.next cfg (.tick elapsed) = some _ := rfl
    cases h
    exact supervisorMove_keeps hk (roster_next hnext hk.roster) (keepsThreads_next rfl hnext)
  | stop =>
    have hnext : s.runner.next cfg .stop = some _ := rfl
    cases h
    exact supervisorMove_keeps hk (roster_next hnext hk.roster) (keepsThreads_next rfl hnext)
  | thread t e => exact absurd rfl (ha t e)

/-- Every step keeps what is known of the threads. -/
theorem known_next (hk : Known s) (h : s.next cfg load a = some s') : Known s' := by
  by_cases ha : ∀ t e, a ≠ .thread t e
  · exact (supervisorMove_next hk ha h).known
  · push Not at ha
    obtain ⟨t, e, rfl⟩ := ha
    have hm := threadMove_next h
    obtain ⟨hst, _⟩ := Option.ite_none_right_eq_some.mp h
    refine ⟨hm.roster hk.roster, fun u hu ↦ ?_, fun u hu ↦ ?_⟩
    · rw [hm.threads.started] at hu
      rw [hm.others u fun heq ↦ hu (heq ▸ hst)]
      exact hk.unborn u hu
    · rw [workerThread, hm.threads.registered]
      exact hk.joined u (hm.joining ▸ hu)

/-- No thread is there at the start. -/
theorem known_starts (now : Time) : Known { runner := { now } } :=
  ⟨⟨nofun, fun _ _ ↦ rfl, nofun, nofun, nofun, nofun, .nil⟩, fun _ _ ↦ rfl, nofun⟩

end Moves

/-- The entries of a thread are there: its worker while it runs, and the beginning of its
retries while it is retrying. -/
structure Watches (s : WatchedRunner) (t : WorkerThread) : Prop where
  instances : s.point t = .running → s.workerInstances t.database = some t
  retrySince : ∀ since, (s.point t).retrySince = some since →
    s.registryLoadRetrySince t.database = some since

/-- The registered thread of every database has its entries. -/
def Covered (s : WatchedRunner) : Prop := ∀ t ∈ s.runner.workerThreads, s.Watches t

/-- A step of a thread leaves the entries alone that the registered thread of its database has,
and finds none in place of its own. -/
def LeavesEntries (load : RegistryLoadConfig) (s : WatchedRunner) : WatchAction → Prop
  | .thread u e => ∀ t ∈ s.runner.workerThreads, t.database = u.database →
    if t = u then
      e = .load .databaseError → s.beginsRetries load t = true →
        ∀ since ∈ s.registryLoadRetrySince t.database, since = s.runner.now
    else
      (s.point t = .running → e.setsInstance = false) ∧
        ((s.point t).retrySince ≠ none → e.dropsRetrySince = false)
  | .discover _ _ _ | .stopWorkerThread _ | .joined | .checkThread _ _ | .expireQuarantine _ _
  | .tick _ | .stop => True

instance (load : RegistryLoadConfig) (s : WatchedRunner) :
    (a : WatchAction) → Decidable (s.LeavesEntries load a)
  | .thread u e =>
    inferInstanceAs (Decidable (∀ t ∈ s.runner.workerThreads, t.database = u.database →
      if t = u then
        e = .load .databaseError → s.beginsRetries load t = true →
          ∀ since ∈ s.registryLoadRetrySince t.database, since = s.runner.now
      else
        (s.point t = .running → e.setsInstance = false) ∧
          ((s.point t).retrySince ≠ none → e.dropsRetrySince = false)))
  | .discover _ _ _ | .stopWorkerThread _ | .joined | .checkThread _ _ | .expireQuarantine _ _
  | .tick _ | .stop => .isTrue trivial

section Covered

variable {cfg : RunnerConfig} {load : RegistryLoadConfig} {s s' : WatchedRunner}
  {t u : WorkerThread} {e : ThreadEvent} {a : WatchAction}

/-- A thread at its start has no entries to lose. -/
theorem watches_of_starting (h : s.point t = .starting) : s.Watches t := by
  constructor
  · simp [h]
  · simp [h, ThreadPoint.retrySince]

/-- The entries of a thread behind its own step. -/
theorem Watches.own (hm : ThreadMove load s t e s') (h : s.Watches t)
    (hfirst : e = .load .databaseError → s.beginsRetries load t = true →
      ∀ since ∈ s.registryLoadRetrySince t.database, since = s.runner.now) : s'.Watches t := by
  constructor
  · intro hrunning
    rw [hm.instances, update_self, hm.running hrunning]
    rfl
  · intro since hsince
    -- A later failure finds the entry of the first one; the first one must find none.
    obtain ⟨hdrops, hown | ⟨rfl, hbegins, rfl⟩⟩ := hm.retrying since hsince
    · rw [hm.retrySince, update_self, h.retrySince since hown]
      exact ThreadEvent.retrySinceBehind_of_not hdrops
    · rw [hm.retrySince, update_self]
      cases hentry : s.registryLoadRetrySince t.database with
      | none => rfl
      | some found => exact congrArg some (hfirst rfl hbegins found hentry)

/-- The entries of a thread behind a step of another one. -/
theorem Watches.other (hm : ThreadMove load s u e s') (hne : t ≠ u) (h : s.Watches t)
    (hinstance : t.database = u.database → s.point t = .running → e.setsInstance = false)
    (hretry : t.database = u.database → (s.point t).retrySince ≠ none →
      e.dropsRetrySince = false) : s'.Watches t := by
  constructor
  · intro hrunning
    rw [hm.others t hne] at hrunning
    rw [hm.instances]
    by_cases hdb : t.database = u.database
    · rw [← hdb, update_self, ThreadEvent.instanceBehind_of_not (hinstance hdb hrunning)]
      exact h.instances hrunning
    · rw [update_of_ne hdb]
      exact h.instances hrunning
  · intro since hsince
    rw [hm.others t hne] at hsince
    rw [hm.retrySince]
    by_cases hdb : t.database = u.database
    · rw [← hdb, update_self, h.retrySince since hsince]
      exact ThreadEvent.retrySinceBehind_of_not (hretry hdb (by simp [hsince]))
    · rw [update_of_ne hdb]
      exact h.retrySince since hsince

/-- Steps that leave the entries alone keep the registered threads covered. -/
theorem covered_next (hk : Known s) (hc : s.Covered) (hleaves : s.LeavesEntries load a)
    (h : s.next cfg load a = some s') : s'.Covered := by
  intro t ht
  by_cases ha : ∀ t e, a ≠ .thread t e
  · have hm := supervisorMove_next hk ha h
    rcases hm.registered t ht with ⟨ht, hworker⟩ | hstarting
    · refine ⟨fun hrunning ↦ ?_, fun since hsince ↦ ?_⟩
      · rw [hworker]
        exact (hc t ht).instances (hm.point ▸ hrunning)
      · rw [hm.retrySince]
        exact (hc t ht).retrySince since (hm.point ▸ hsince)
    · exact watches_of_starting (hm.point ▸ hstarting)
  · push Not at ha
    obtain ⟨u, e, rfl⟩ := ha
    have hm := threadMove_next h
    rw [hm.threads.registered] at ht
    by_cases heq : t = u
    · subst heq
      have hfirst := hleaves t ht rfl
      rw [if_pos rfl] at hfirst
      exact (hc t ht).own hm hfirst
    · have hleave (hdb : t.database = u.database) := hleaves t ht hdb
      simp only [if_neg heq] at hleave
      exact (hc t ht).other hm heq (fun hdb ↦ (hleave hdb).1) fun hdb ↦ (hleave hdb).2

/-- The first database error of a thread is the beginning of its retries. -/
theorem retrySince_of_beginsRetries (hbegins : s.beginsRetries load t = true)
    (h : s.next cfg load (.thread t (.load .databaseError)) = some s') :
    (s'.point t).retrySince = some s.runner.now := by
  obtain ⟨_, h⟩ := Option.ite_none_right_eq_some.mp h
  simp only [workerThreadTarget] at h
  split at h
  · next attempt since tries hp =>
    obtain ⟨_, h⟩ := Option.ite_none_right_eq_some.mp h
    cases h
    cases since with
    | none =>
      simp only [beginsRetries, hp] at hbegins
      simp [loadRegistry, loadRound, hbegins, ThreadPoint.retrySince]
    | some since => simp [beginsRetries, hp] at hbegins
  · cases h

/-- A step that does not leave the entries alone uncovers the registered thread. -/
theorem leavesEntries_of_covered (hc : s'.Covered) (h : s.next cfg load a = some s') :
    s.LeavesEntries load a := by
  cases a with
  | thread u e =>
    rintro t ht hdb
    have hm := threadMove_next h
    have ht' : t ∈ s'.runner.workerThreads := by rwa [hm.threads.registered]
    split
    · next heq =>
      subst heq
      rintro rfl hbegins found hfound
      have hentry := (hc t ht').retrySince _ (retrySince_of_beginsRetries hbegins h)
      rw [hm.retrySince, update_self, Option.mem_def.mp hfound] at hentry
      exact Option.some.inj hentry
    · next hne =>
      refine ⟨fun hrunning ↦ ?_, fun hretrying ↦ ?_⟩
      · by_contra hsets
        have hentry := (hc t ht').instances (by rwa [hm.others t hne])
        rw [hm.instances, hdb, update_self] at hentry
        exact ThreadEvent.instanceBehind_ne (Bool.not_eq_false _ ▸ hsets) hne hentry
      · by_contra hdrops
        obtain ⟨since, hsince⟩ := Option.ne_none_iff_exists'.mp hretrying
        have hentry := (hc t ht').retrySince since (by rwa [hm.others t hne])
        rw [hm.retrySince, hdb, update_self,
          ThreadEvent.retrySinceBehind_of_drops (Bool.not_eq_false _ ▸ hdrops)] at hentry
        cases hentry
  | _ => exact trivial

/-- In a run whose steps leave the entries alone, the registered threads are covered. -/
theorem covered {past : List (WatchedRunner × WatchAction)} (h : WatchedRun cfg load past s)
    (hg : Guarded (LeavesEntries load) past) : ∀ u ∈ states past s, u.Known ∧ u.Covered := by
  refine h.invariant_states hg (P := fun u ↦ u.Known ∧ u.Covered) ?_ ?_
  · rintro u ⟨now, rfl⟩
    exact ⟨known_starts now, nofun⟩
  · rintro u a u' ⟨hk, hc⟩ ha hnext
    exact ⟨known_next hk hnext, covered_next hk hc ha hnext⟩

/-- Then the watchdog measures the progress of every running worker. -/
theorem findsStalled_iff {past : List (WatchedRunner × WatchAction)} {timeout : Int}
    {lastProgress : WorkerThread → Time} (h : WatchedRun cfg load past s)
    (hg : Guarded (LeavesEntries load) past) (ht : t ∈ s.runner.workerThreads)
    (halive : s.runner.phase t ≠ .dead) (hrunning : s.point t = .running) :
    s.findsStalled timeout lastProgress t.database = true ↔
      0 < timeout ∧ s.runner.stopEvent = false ∧
        timeout * second < s.runner.now - lastProgress t := by
  obtain ⟨hk, hc⟩ := covered h hg s List.mem_cons_self
  simp [findsStalled, (hc t ht).instances hrunning, workerThread_of_mem hk.roster ht, halive,
    and_assoc]

/-- The registered thread of every database has its entries, in every state, if and only if no
other thread of the database writes or removes them while it needs them, and none is left behind
when its retries begin. -/
theorem covered_iff {past : List (WatchedRunner × WatchAction)}
    (h : WatchedRun cfg load past s) :
    (∀ u ∈ states past s, u.Covered) ↔ Guarded (LeavesEntries load) past := by
  constructor
  · rintro hall ⟨v, a⟩ hp
    obtain ⟨u, hu, hnext⟩ := h.after hp
    exact leavesEntries_of_covered (hall u hu) hnext
  · exact fun hg u hu ↦ (covered h hg u hu).2

/-- A thread that ends takes no other gate with it. -/
theorem upgradeGates_of_ends (h : s.next cfg load (.thread u .ends) = some s')
    (hgate : s.upgradeGates t.database = some t) (hne : t ≠ u) :
    s'.upgradeGates t.database = some t := by
  obtain ⟨_, h⟩ := Option.ite_none_right_eq_some.mp h
  obtain ⟨_, h⟩ := Option.ite_none_right_eq_some.mp h
  obtain ⟨runner, _, heq⟩ := Option.map_eq_some_iff.mp h
  cases heq
  show (if s.upgradeGates u.database = some u then update s.upgradeGates u.database none
    else s.upgradeGates) t.database = some t
  split
  · next hown =>
    have hdb : t.database ≠ u.database := by
      intro hdb
      rw [hdb, hown] at hgate
      exact hne (Option.some.inj hgate).symm
    rwa [update_of_ne hdb]
  · exact hgate

/-- What `_worker_thread_target` does up to `worker.run()`. -/
def startsUp (t : WorkerThread) : List WatchAction :=
  [.thread t .registersGate, .thread t .tries, .thread t (.load .loaded), .thread t .publishes]

/-- The thread leaves `worker.run()`, and the `finally` block removes its worker. -/
def leaves (t : WorkerThread) : List WatchAction :=
  [.thread t .returns, .thread t .dropsInstance]

/-- A runner that has not started its first thread at time zero. -/
def idleRunner : WatchedRunner := { runner := { now := 0 } }

/-- The database is found, removed while its worker runs, and found again. -/
def foundAgain : List WatchAction :=
  [.discover "prod" findsProd []] ++ startsUp ⟨0, "prod"⟩ ++
    [.stopWorkerThread "prod", .joined, .discover "prod" findsProd []]

/-- The removed thread ends before the new one publishes its worker. -/
theorem covered_foundAgain : ∃ past s, WatchedRun {} {} past s ∧
    s.point ⟨1, "prod"⟩ = .running ∧ ∀ u ∈ states past s, u.Covered := by
  have hrun : (replay (next {} {}) idleRunner
      (foundAgain ++ leaves ⟨0, "prod"⟩ ++ startsUp ⟨1, "prod"⟩)).any (fun r ↦
        decide ((∀ p ∈ r.1, p.1.LeavesEntries {} p.2) ∧ r.2.point ⟨1, "prod"⟩ = .running)) =
      true := by decide +kernel
  obtain ⟨⟨past, s⟩, hs, hrun⟩ := (Option.any_eq_true _ _).mp hrun
  obtain ⟨hg, hrunning⟩ := of_decide_eq_true hrun
  have h : WatchedRun {} {} past s := Run.of_replay id ⟨0, rfl⟩ hs
  exact ⟨past, s, h, hrunning, (covered_iff h).mpr hg⟩

/-- The removed thread ends behind the new one, and takes its worker out. -/
theorem not_covered_foundAgain : ∃ past s, WatchedRun {} {} past s ∧
    ⟨1, "prod"⟩ ∈ s.runner.workerThreads ∧ s.runner.phase ⟨1, "prod"⟩ ≠ .dead ∧
      s.point ⟨1, "prod"⟩ = .running ∧ s.workerInstances "prod" = none ∧ ¬ s.Covered := by
  have hrun : (replay (next {} {}) idleRunner
      (foundAgain ++ startsUp ⟨1, "prod"⟩ ++ leaves ⟨0, "prod"⟩)).any (fun r ↦
        decide (⟨1, "prod"⟩ ∈ r.2.runner.workerThreads ∧ r.2.runner.phase ⟨1, "prod"⟩ ≠ .dead ∧
          r.2.point ⟨1, "prod"⟩ = .running ∧ r.2.workerInstances "prod" = none)) =
      true := by decide +kernel
  obtain ⟨⟨past, s⟩, hs, hrun⟩ := (Option.any_eq_true _ _).mp hrun
  have h : WatchedRun {} {} past s := Run.of_replay id ⟨0, rfl⟩ hs
  obtain ⟨ht, halive, hrunning, hnone⟩ := of_decide_eq_true hrun
  refine ⟨past, s, h, ht, halive, hrunning, hnone, fun hc ↦ ?_⟩
  exact nomatch hnone.symm.trans ((hc _ ht).instances hrunning)

end Covered
end WatchedRunner
end JobWorker
