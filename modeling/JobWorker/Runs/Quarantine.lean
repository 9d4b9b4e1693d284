import JobWorker.Base.RestartBudget
import JobWorker.Cli.Runner
import Mathlib.Algebra.Order.Group.Int

/-!
# Restarts, failure timestamps and quarantine

Every death of a worker thread is counted once, by the thread itself or by the health check
(`job_worker/cli/runner.py:419–454,593–650,738–779`), and a database is quarantined when
its deaths of the last window reach the maximum. Seen from one database that is never
removed, the supervisor is therefore a budget of restarts.
-/

namespace JobWorker
namespace QueueJobRunner

open Transition RestartBudget

/-- The threads whose death has been stamped. -/
def stampedThreads (s : QueueJobRunner) : List WorkerThread := s.stamps.map Prod.fst

/-- What the supervisor knows of its threads, in every state. -/
structure Roster (s : QueueJobRunner) : Prop where
  fresh : ∀ t ∈ s.started, t.id < s.nextThread
  unborn : ∀ t, t ∉ s.started → s.phase t = .serving
  registered : ∀ t ∈ s.workerThreads, t ∈ s.started
  unique : ∀ t ∈ s.workerThreads, ∀ u ∈ s.workerThreads, t.database = u.database → t = u
  counted : ∀ t ∈ s.deathsCounted, t ∈ s.stampedThreads
  stamped : ∀ t ∈ s.stampedThreads, t ∈ s.started ∧ s.phase t ≠ .serving ∧
    (t ∈ s.workerThreads → t ∈ s.deathsCounted)
  once : s.stampedThreads.Nodup

section Roster

variable {cfg : RunnerConfig} {s s' : QueueJobRunner} {db : String} {thread : WorkerThread}

/-- The entry of a database. -/
theorem workerThread_eq_some (h : s.workerThread db = some thread) :
    thread ∈ s.workerThreads ∧ thread.database = db :=
  ⟨List.mem_of_find?_eq_some h, by simpa using List.find?_some h⟩

/-- A database with a registered thread has an entry. -/
theorem workerThread_of_mem (hr : Roster s) (h : thread ∈ s.workerThreads) :
    s.workerThread thread.database = some thread := by
  cases ht : s.workerThread thread.database with
  | none => simpa using List.find?_eq_none.mp ht thread h
  | some t =>
    obtain ⟨hmem, hdb⟩ := workerThread_eq_some ht
    rw [hr.unique t hmem thread h hdb]

/-- The roster says nothing about clock, failure list and quarantine. -/
theorem Roster.quiet (h : Roster s) (now : Time) (delays : List Nat)
    (listed : String → List Time) (quarantined : List String) :
    Roster { s with
      now, delays, failureTimestamps := listed, quarantinedDatabases := quarantined } :=
  ⟨h.fresh, h.unborn, h.registered, h.unique, h.counted, h.stamped, h.once⟩

/-- A thread crashes or ends. -/
theorem Roster.leave (h : Roster s) (hs : thread ∈ s.started) {p : ThreadPhase}
    (hp : p ≠ .serving) : Roster { s with phase := Function.update s.phase thread p } := by
  refine ⟨h.fresh, fun t ht ↦ ?_, h.registered, h.unique, h.counted, fun t ht ↦ ?_, h.once⟩
  · have hne : t ≠ thread := fun heq ↦ ht (heq ▸ hs)
    exact (Function.update_of_ne hne _ _).trans (h.unborn t ht)
  · obtain ⟨hst, hphase, hc⟩ := h.stamped t ht
    refine ⟨hst, ?_, hc⟩
    show Function.update s.phase thread p t ≠ .serving
    by_cases heq : t = thread
    · rwa [heq, Function.update_self]
    · rwa [Function.update_of_ne heq]

/-- A death is counted and stamped for the first time. -/
theorem Roster.count (h : Roster s) (hs : thread ∈ s.started) (hp : s.phase thread ≠ .serving)
    (hn : thread ∉ s.stampedThreads) :
    Roster (s.addDeath cfg thread) := by
  obtain ⟨t, now, delays, _, _, heq⟩ := addDeath_eq cfg (s := s) thread
  rw [heq]
  have hmem (u : WorkerThread) :
      u ∈ ((thread, t) :: s.stamps).map Prod.fst ↔ u = thread ∨ u ∈ s.stampedThreads := by
    simp [stampedThreads]
  refine ⟨h.fresh, h.unborn, h.registered, h.unique, fun u hu ↦ ?_, fun u hu ↦ ?_, ?_⟩
  · rw [List.mem_insert_iff] at hu
    exact (hmem u).mpr (hu.imp_right (h.counted u))
  · rcases (hmem u).mp hu with rfl | hu
    · exact ⟨hs, hp, fun _ ↦ List.mem_insert_self⟩
    · obtain ⟨hst, hphase, hc⟩ := h.stamped u hu
      exact ⟨hst, hphase, fun hw ↦ List.mem_insert_of_mem (hc hw)⟩
  · exact List.nodup_cons.mpr ⟨hn, h.once⟩

/-- An entry is dropped with what is known of its thread. -/
theorem Roster.forget (h : Roster s) (db : String) : Roster (s.forgetThread db) := by
  unfold forgetThread
  split
  · exact h
  · next thread ht =>
    obtain ⟨_, hdb⟩ := workerThread_eq_some ht
    refine ⟨h.fresh, h.unborn, fun t ht ↦ h.registered t (List.mem_of_mem_filter ht),
      fun t ht u hu ↦ h.unique t (List.mem_of_mem_filter ht) u (List.mem_of_mem_filter hu),
      fun t ht ↦ h.counted t (List.mem_of_mem_filter ht), fun t ht ↦ ?_, h.once⟩
    obtain ⟨hst, hphase, hc⟩ := h.stamped t ht
    refine ⟨hst, hphase, fun hw ↦ ?_⟩
    obtain ⟨hw, hne⟩ := List.mem_filter.mp hw
    refine List.mem_filter.mpr ⟨hc hw, ?_⟩
    rw [bne_iff_ne] at hne ⊢
    rintro rfl
    exact hne hdb

/-- A new thread is registered. -/
theorem Roster.start (h : Roster s) (db : String) : Roster (s.startWorkerThread db) := by
  have hnew : (⟨s.nextThread, db⟩ : WorkerThread) ∉ s.started := fun hs ↦
    Nat.lt_irrefl _ (h.fresh _ hs)
  have hmem (t : WorkerThread) (ht : t ∈ (s.startWorkerThread db).workerThreads) :
      t ∈ s.workerThreads ∧ t.database ≠ db ∨ t = ⟨s.nextThread, db⟩ := by
    simpa [startWorkerThread] using ht
  refine ⟨?_, fun t ht ↦ ?_, fun t ht ↦ ?_, fun t ht u hu heq ↦ ?_, h.counted, fun t ht ↦ ?_,
    h.once⟩
  · rintro t (_ | ⟨_, ht⟩)
    · exact Nat.lt_succ_self _
    · exact Nat.lt_succ_of_lt (h.fresh t ht)
  · exact h.unborn t fun hs ↦ ht (List.mem_cons_of_mem _ hs)
  · rcases hmem t ht with ⟨ht, _⟩ | rfl
    · exact List.mem_cons_of_mem _ (h.registered t ht)
    · exact List.mem_cons_self
  · rcases hmem t ht with ⟨ht, hne⟩ | rfl
    · rcases hmem u hu with ⟨hu, _⟩ | rfl
      · exact h.unique t ht u hu heq
      · exact absurd heq hne
    · rcases hmem u hu with ⟨_, hne⟩ | rfl
      · exact absurd heq.symm hne
      · rfl
  · obtain ⟨hst, hphase, hc⟩ := h.stamped t ht
    refine ⟨List.mem_cons_of_mem _ hst, hphase, fun hw ↦ ?_⟩
    rcases hmem t hw with ⟨hw, _⟩ | rfl
    · exact hc hw
    · exact absurd hst hnew

/-- A registered thread that is not counted is not stamped. -/
theorem Roster.not_stamped (h : Roster s) (hw : thread ∈ s.workerThreads)
    (hn : thread ∉ s.deathsCounted) : thread ∉ s.stampedThreads :=
  fun hs ↦ hn ((h.stamped thread hs).2.2 hw)

/-- A serving thread is not stamped. -/
theorem Roster.not_stamped_of_serving (h : Roster s) (hp : s.phase thread = .serving) :
    thread ∉ s.stampedThreads := fun hs ↦ (h.stamped thread hs).2.1 hp

theorem Roster.expireQuarantine (h : Roster s) (db : String) :
    Roster (s.expireQuarantine cfg db) := by
  obtain ⟨now, delays, _, listed, _, heq⟩ := expireQuarantine_eq cfg (s := s) db
  rw [heq]
  exact h.quiet _ _ _ _

theorem Roster.countDeath (h : Roster s) (hw : thread ∈ s.workerThreads)
    (hp : s.phase thread ≠ .serving) : Roster (s.countDeath cfg thread) := by
  unfold QueueJobRunner.countDeath
  split
  · exact h
  · next hn => exact h.count (h.registered thread hw) hp (h.not_stamped hw hn)

theorem Roster.restart (h : Roster s) (db : String) : Roster (s.restart db) := by
  apply Roster.start
  have hf := h.forget db
  exact ⟨hf.fresh, hf.unborn, hf.registered, hf.unique, hf.counted, hf.stamped, hf.once⟩

theorem Roster.checkThread (h : Roster s) (db : String) : Roster (s.checkThread cfg db) := by
  unfold QueueJobRunner.checkThread
  split
  · exact h
  split
  · exact h
  · next thread ht =>
    split
    · exact h
    · next hp =>
      have hdead := not_not.mp hp
      have hc : Roster (s.countDeath cfg thread) :=
        h.countDeath (workerThread_eq_some ht).1 (by simp [hdead])
      split
      · exact h
      · dsimp only
        split
        · exact hc
        · exact hc.restart db

theorem Roster.stopWorkerThread (h : Roster s) (db : String) :
    Roster (s.stopWorkerThread db) := by
  have hf := h.forget db
  exact ⟨hf.fresh, hf.unborn, hf.registered, hf.unique, hf.counted, hf.stamped, hf.once⟩

/-- What every round of a loop keeps, the loop keeps. -/
theorem foldl_keeps {P : QueueJobRunner → Prop} {f : QueueJobRunner → String → QueueJobRunner}
    (names : List String) (h : P s) (hf : ∀ s db, db ∈ names → P s → P (f s db)) :
    P (names.foldl f s) :=
  List.foldlRecOn names f h fun s hs db hdb ↦ hf s db hdb hs

theorem Roster.discover (h : Roster s) (d : Discovery) (db : String) :
    Roster (s.discover cfg d db) := by
  unfold QueueJobRunner.discover
  split
  · exact h
  split
  · exact h
  split
  · exact h
  · exact (h.quiet _ _ _ _).start db

theorem Roster.discoverDatabases (h : Roster s) (d : Discovery) :
    Roster (s.discoverDatabases cfg d) := by
  apply foldl_keeps
  · apply foldl_keeps
    · exact foldl_keeps _ h fun s db _ hs ↦ hs.expireQuarantine db
    · exact fun s db _ hs ↦ hs.discover d db
  · intro s db _ hs
    unfold hotRemove
    split
    · exact hs
    · exact hs.stopWorkerThread db

/-- Every step keeps the roster. -/
theorem roster_next {a : RunnerAction} (h : s.next cfg a = some s') (hr : Roster s) :
    Roster s' := by
  cases a with
  | tick | stop =>
    cases h
    exact ⟨hr.fresh, hr.unborn, hr.registered, hr.unique, hr.counted, hr.stamped, hr.once⟩
  | crash thread delays =>
    obtain ⟨⟨hs, hp⟩, h⟩ := Option.ite_none_right_eq_some.mp h
    cases h
    have hl := (hr.quiet s.now delays s.failureTimestamps s.quarantinedDatabases).leave hs
      (p := .crashed) nofun
    exact hl.count hs (by simp) (hr.not_stamped_of_serving hp)
  | ends thread =>
    obtain ⟨⟨hs, _⟩, h⟩ := Option.ite_none_right_eq_some.mp h
    cases h
    exact hr.leave hs nofun
  | discoverDatabases d delays =>
    obtain ⟨_, h⟩ := Option.ite_none_left_eq_some.mp h
    cases h
    exact (hr.quiet s.now delays s.failureTimestamps s.quarantinedDatabases).discoverDatabases d
  | checkThreadHealth delays =>
    obtain ⟨_, h⟩ := Option.ite_none_left_eq_some.mp h
    cases h
    exact foldl_keeps _ (hr.quiet s.now delays s.failureTimestamps s.quarantinedDatabases)
      fun s db _ hs ↦ hs.checkThread db
  | cleanup =>
    obtain ⟨_, h⟩ := Option.ite_none_right_eq_some.mp h
    cases h
    have hc : Roster s.cleanup := foldl_keeps _ hr fun s db _ hs ↦ hs.stopWorkerThread db
    exact ⟨hc.fresh, hc.unborn, hc.registered, hc.unique, hc.counted, hc.stamped, hc.once⟩

/-- The roster holds in every state of a run. -/
theorem roster {past : List (QueueJobRunner × RunnerAction)} (h : RunnerRun cfg past s) :
    Roster s := by
  apply h.always
  · rintro s ⟨now, rfl⟩
    exact ⟨nofun, fun _ _ ↦ rfl, nofun, nofun, nofun, nofun, .nil⟩
  · exact fun s a s' hr hs ↦ roster_next hs hr

end Roster

/-- The times at which deaths of a database's threads were stamped. -/
def stampsOf (s : QueueJobRunner) (db : String) : List Time :=
  (s.stamps.filter fun p ↦ p.1.database == db).map Prod.snd

/-- The times at which the health check restarted the thread of a database. -/
def restartsOf (s : QueueJobRunner) (db : String) : List Time :=
  (s.restarts.filter fun p ↦ p.1 == db).map Prod.snd

/-- A database, seen as a supervised service. -/
def service (s : QueueJobRunner) (db : String) : RestartBudget.State Time where
  now := s.now
  listed := s.failureTimestamps db
  quarantined := s.quarantinedDatabases.contains db
  counted := s.workerThreads.any fun t ↦ t.database == db && s.deathsCounted.contains t
  deaths := s.stampsOf db
  restarts := s.restartsOf db

/-- What the supervisor knows of a database that it never removes. -/
structure Supervised (cfg : RunnerConfig) (db : String) (s : QueueJobRunner) : Prop where
  followed : ∀ t ∈ s.started, t.database = db →
    t ∈ s.workerThreads ∨ s.phase t = .dead ∧ t ∈ s.stampedThreads
  manned : (∃ t ∈ s.started, t.database = db) → ∃ t ∈ s.workerThreads, t.database = db
  armed : db ∈ s.quarantinedDatabases →
    ∃ t ∈ s.workerThreads, t.database = db ∧ t ∈ s.deathsCounted
  kept : Kept (cfg.failureWindowSeconds * second) cfg.maximumConsecutiveFailures.toNat
    (s.service db)

/-- Nothing happens to a database but the passing of time. -/
structure Untouched (db : String) (s s' : QueueJobRunner) : Prop where
  now : s.now ≤ s'.now
  listed : s'.failureTimestamps db = s.failureTimestamps db
  quarantined : db ∈ s'.quarantinedDatabases ↔ db ∈ s.quarantinedDatabases
  registered : ∀ t, t.database = db → (t ∈ s'.workerThreads ↔ t ∈ s.workerThreads)
  counted : ∀ t, t.database = db → (t ∈ s'.deathsCounted ↔ t ∈ s.deathsCounted)
  started : ∀ t, t.database = db → (t ∈ s'.started ↔ t ∈ s.started)
  phase : ∀ t, t.database = db → s.phase t = .dead → s'.phase t = .dead
  stamps : s'.stampsOf db = s.stampsOf db
  stamped : ∀ t, t.database = db → t ∈ s.stampedThreads → t ∈ s'.stampedThreads
  restarts : s'.restartsOf db = s.restartsOf db

section Supervised

variable {cfg : RunnerConfig} {s s' : QueueJobRunner} {db other : String}
  {thread : WorkerThread}

/-- A database whose thread is counted. -/
theorem counted_service : (s.service db).counted = true ↔
    ∃ t ∈ s.workerThreads, t.database = db ∧ t ∈ s.deathsCounted := by
  simp [service, List.any_eq_true]

/-- An untouched database is the same service at a later time. -/
theorem Untouched.service (h : Untouched db s s') :
    s'.service db = { s.service db with now := s'.now } := by
  have hc : (s'.service db).counted = (s.service db).counted := by
    rw [Bool.eq_iff_iff, counted_service, counted_service]
    constructor
    · rintro ⟨t, ht, hdb, hdc⟩
      exact ⟨t, (h.registered t hdb).mp ht, hdb, (h.counted t hdb).mp hdc⟩
    · rintro ⟨t, ht, hdb, hdc⟩
      exact ⟨t, (h.registered t hdb).mpr ht, hdb, (h.counted t hdb).mpr hdc⟩
  have hq : (s'.service db).quarantined = (s.service db).quarantined := by
    rw [Bool.eq_iff_iff]
    simpa [QueueJobRunner.service] using h.quarantined
  show RestartBudget.State.mk _ _ _ _ _ _ = RestartBudget.State.mk _ _ _ _ _ _
  rw [State.mk.injEq]
  exact ⟨rfl, h.listed, hq, hc, h.stamps, h.restarts⟩

/-- An untouched database stays supervised. -/
theorem Supervised.untouched (hs : Supervised cfg db s) (h : Untouched db s s')
    (hpos : 1 ≤ cfg.maximumConsecutiveFailures) : Supervised cfg db s' := by
  refine ⟨fun t ht hdb ↦ ?_, ?_, fun hq ↦ ?_, ?_⟩
  · rcases hs.followed t ((h.started t hdb).mp ht) hdb with hw | ⟨hd, hst⟩
    · exact .inl ((h.registered t hdb).mpr hw)
    · exact .inr ⟨h.phase t hdb hd, h.stamped t hdb hst⟩
  · rintro ⟨t, ht, hdb⟩
    obtain ⟨u, hu, hudb⟩ := hs.manned ⟨t, (h.started t hdb).mp ht, hdb⟩
    exact ⟨u, (h.registered u hudb).mpr hu, hudb⟩
  · obtain ⟨t, ht, hdb, hc⟩ := hs.armed (h.quarantined.mp hq)
    exact ⟨t, (h.registered t hdb).mpr ht, hdb, (h.counted t hdb).mpr hc⟩
  · rw [h.service]
    exact kept_step (by omega) (.elapse h.now) hs.kept

/-- A list that has reached the maximum quarantines the database. -/
theorem contains_armed {names : List String} {M : Int} {n : Nat} :
    (if M ≤ n then names.insert db else names).contains db =
      (names.contains db || decide (M.toNat ≤ n)) := by
  rw [Bool.eq_iff_iff, Bool.or_eq_true, decide_eq_true_eq, Int.toNat_le]
  split
  · next hm => simp [hm]
  · next hm => simp [hm]

/-- A list that has not reached it lifts the quarantine. -/
theorem contains_expired {names : List String} {M : Int} {n : Nat} :
    (if M ≤ n then names else names.filter (· != db)).contains db =
      (names.contains db && decide (M.toNat ≤ n)) := by
  rw [Bool.eq_iff_iff, Bool.and_eq_true, decide_eq_true_eq, Int.toNat_le]
  split
  · next hm => simp [hm]
  · next hm => simp [hm]

/-- A death in another database. -/
theorem untouched_count (hne : thread.database ≠ db) :
    Untouched db s (s.addDeath cfg thread) := by
  obtain ⟨t, now, delays, hle, hle', heq⟩ := addDeath_eq cfg (s := s) thread
  rw [heq]
  have hother (u : WorkerThread) (hu : u.database = db) : u ≠ thread := by
    rintro rfl
    exact hne hu
  refine ⟨hle.trans hle', ?_, ?_, fun _ _ ↦ Iff.rfl, fun u hu ↦ ?_, fun _ _ ↦ Iff.rfl,
    fun _ _ ↦ id, ?_, fun u _ hs ↦ List.mem_cons_of_mem _ hs, rfl⟩
  · exact Function.update_of_ne hne.symm _ _
  · dsimp only
    split
    · simp [hne.symm]
    · rfl
  · simp [hother u hu]
  · simp [stampsOf, hne]

/-- A death is a recorded death of the service. -/
theorem Supervised.count (h : Supervised cfg db s) (hr : Roster s)
    (hpos : 1 ≤ cfg.maximumConsecutiveFailures)
    (hw : thread.database = db → thread ∈ s.workerThreads) (hn : thread ∉ s.deathsCounted) :
    Supervised cfg db (s.addDeath cfg thread) := by
  by_cases hdb : thread.database = db
  · have hmem := hw hdb
    have hcounted : (s.service db).counted = false := by
      rw [Bool.eq_false_iff, ne_eq, counted_service]
      rintro ⟨t, ht, htdb, hc⟩
      exact hn (hr.unique t ht thread hmem (htdb.trans hdb.symm) ▸ hc)
    obtain ⟨t, now, delays, hle, hle', heq⟩ := addDeath_eq cfg (s := s) thread
    rw [heq]
    refine ⟨fun u hu hudb ↦ ?_, h.manned, fun _ ↦ ⟨thread, hmem, hdb, List.mem_insert_self⟩, ?_⟩
    · exact (h.followed u hu hudb).imp_right fun hd ↦ ⟨hd.1, List.mem_cons_of_mem _ hd.2⟩
    · convert kept_step (by omega) (.record hle hle' hcounted) h.kept using 1
      subst hdb
      simp only [service, State.mk.injEq]
      refine ⟨trivial, Function.update_self _ _ _, contains_armed, ?_, ?_, rfl⟩
      · simp only [List.any_eq_true]
        exact ⟨thread, hmem, by simp⟩
      · simp [stampsOf]
  · exact h.untouched (untouched_count hdb) hpos

/-- A look at the quarantine of another database. -/
theorem untouched_expireQuarantine (hne : other ≠ db) :
    Untouched db s (s.expireQuarantine cfg other) := by
  obtain ⟨now, delays, hle, listed, _, heq⟩ := expireQuarantine_eq cfg (s := s) other
  rw [heq]
  refine ⟨hle, Function.update_of_ne hne.symm _ _, ?_, fun _ _ ↦ Iff.rfl, fun _ _ ↦ Iff.rfl,
    fun _ _ ↦ Iff.rfl, fun _ _ ↦ id, rfl, fun _ _ ↦ id, rfl⟩
  dsimp only
  split
  · rfl
  · simp [hne.symm]

/-- A look at the quarantine is one of the service. -/
theorem Supervised.expireQuarantine (h : Supervised cfg db s)
    (hpos : 1 ≤ cfg.maximumConsecutiveFailures) (other : String) :
    Supervised cfg db (s.expireQuarantine cfg other) := by
  by_cases hdb : other = db
  · obtain ⟨now, delays, hle, listed, rfl, heq⟩ :=
      expireQuarantine_eq cfg (s := s) other
    rw [heq]
    refine ⟨h.followed, h.manned, fun hq ↦ h.armed ?_, ?_⟩
    · dsimp only at hq
      split at hq
      · exact hq
      · exact List.mem_of_mem_filter hq
    · convert kept_step (by omega) (.expire hle) h.kept using 1
      subst hdb
      simp only [service, State.mk.injEq]
      exact ⟨trivial, Function.update_self _ _ _, contains_expired, trivial, rfl, rfl⟩
  · exact h.untouched (untouched_expireQuarantine hdb) hpos

/-- Time passes, and threads die. -/
theorem untouched_quiet {now : Time} {delays : List Nat} {stopEvent : Bool}
    {phase : WorkerThread → ThreadPhase} (hle : s.now ≤ now)
    (hphase : ∀ t, t.database = db → s.phase t = .dead → phase t = .dead) :
    Untouched db s { s with now, delays, stopEvent, phase } :=
  ⟨hle, rfl, Iff.rfl, fun _ _ ↦ Iff.rfl, fun _ _ ↦ Iff.rfl, fun _ _ ↦ Iff.rfl, hphase, rfl,
    fun _ _ ↦ id, rfl⟩

/-- A thread of another database is registered. -/
theorem untouched_start (hne : other ≠ db) : Untouched db s (s.startWorkerThread other) := by
  have hnew (t : WorkerThread) (ht : t.database = db) : t ≠ ⟨s.nextThread, other⟩ := by
    rintro rfl
    exact hne ht
  refine ⟨le_rfl, rfl, Iff.rfl, fun t ht ↦ ?_, fun _ _ ↦ Iff.rfl, fun t ht ↦ ?_,
    fun _ _ ↦ id, rfl, fun _ _ ↦ id, rfl⟩
  · have hdb : t.database ≠ other := fun heq ↦ hne (heq.symm.trans ht)
    simp [startWorkerThread, hnew t ht, hdb]
  · simp [startWorkerThread, hnew t ht]

/-- The entry of another database is dropped. -/
theorem untouched_forget (hne : other ≠ db) : Untouched db s (s.forgetThread other) := by
  unfold forgetThread
  split
  · exact untouched_quiet le_rfl fun _ _ ↦ id
  · next thread hthread =>
    have hold := (workerThread_eq_some hthread).2
    refine ⟨le_rfl, rfl, Iff.rfl, fun t ht ↦ ?_, fun t ht ↦ ?_, fun _ _ ↦ Iff.rfl,
      fun _ _ ↦ id, rfl, fun _ _ ↦ id, rfl⟩
    · have hdb : t.database ≠ other := fun heq ↦ hne (heq.symm.trans ht)
      simp [hdb]
    · have hdb : t ≠ thread := by
        rintro rfl
        exact hne (hold.symm.trans ht)
      simp [hdb]

/-- One step behind another. -/
theorem Untouched.trans {t : QueueJobRunner} (h : Untouched db s t) (h' : Untouched db t s') :
    Untouched db s s' where
  now := h.now.trans h'.now
  listed := h'.listed.trans h.listed
  quarantined := h'.quarantined.trans h.quarantined
  registered u hu := (h'.registered u hu).trans (h.registered u hu)
  counted u hu := (h'.counted u hu).trans (h.counted u hu)
  started u hu := (h'.started u hu).trans (h.started u hu)
  phase u hu hd := h'.phase u hu (h.phase u hu hd)
  stamps := h'.stamps.trans h.stamps
  stamped u hu hst := h'.stamped u hu (h.stamped u hu hst)
  restarts := h'.restarts.trans h.restarts

/-- The thread of another database is restarted. -/
theorem untouched_restart (hne : other ≠ db) : Untouched db s (s.restart other) := by
  refine ((untouched_forget hne).trans ?_).trans (untouched_start hne)
  refine ⟨now_le_elapse, rfl, Iff.rfl, fun _ _ ↦ Iff.rfl, fun _ _ ↦ Iff.rfl, fun _ _ ↦ Iff.rfl,
    fun _ _ ↦ id, rfl, fun _ _ ↦ id, ?_⟩
  simp [restartsOf, hne, elapse]

/-- A restart is one of the service. -/
theorem Supervised.restart (h : Supervised cfg db s) (hr : Roster s)
    (hpos : 1 ≤ cfg.maximumConsecutiveFailures) (ht : s.workerThread other = some thread)
    (hp : s.phase thread = .dead) (hc : thread ∈ s.deathsCounted)
    (hq : other ∉ s.quarantinedDatabases) : Supervised cfg db (s.restart other) := by
  by_cases hdb : other = db
  · subst hdb
    obtain ⟨hw, hthread⟩ := workerThread_eq_some ht
    obtain ⟨now, delays, hle, heq⟩ := restart_eq ht
    have hnew : (⟨s.nextThread, other⟩ : WorkerThread) ∉ s.deathsCounted := fun hd ↦
      Nat.lt_irrefl _ (hr.fresh _ (hr.stamped _ (hr.counted _ hd)).1)
    rw [heq]
    refine ⟨fun t hst hdb ↦ ?_, fun _ ↦ ⟨⟨s.nextThread, other⟩, ?_, rfl⟩,
      fun hq' ↦ absurd hq' hq, ?_⟩
    · rcases List.mem_cons.mp hst with rfl | hst
      · exact .inl (List.mem_append_right _ List.mem_cons_self)
      · rcases h.followed t hst hdb with htw | hd
        · have := hr.unique t htw thread hw (hdb.trans hthread.symm)
          subst this
          exact .inr ⟨hp, hr.counted t hc⟩
        · exact .inr hd
    · exact List.mem_append_right _ List.mem_cons_self
    · have hcounted : (s.service other).counted = true :=
        counted_service.mpr ⟨thread, hw, hthread, hc⟩
      have hfree : (s.service other).quarantined = false := by simpa [service] using hq
      convert kept_step (by omega) (.restart hle hfree hcounted) h.kept using 1
      simp only [service, State.mk.injEq]
      refine ⟨trivial, trivial, trivial, ?_, rfl, by simp [restartsOf]⟩
      simp only [List.any_append, List.any_filter, List.any_cons, List.any_nil]
      simp [List.any_eq_false, hnew]
      intro t _ hne heq
      exact absurd heq hne
  · exact h.untouched (untouched_restart hdb) hpos

/-- A round of the health check keeps the database supervised. -/
theorem Supervised.checkThread (h : Supervised cfg db s) (hr : Roster s)
    (hpos : 1 ≤ cfg.maximumConsecutiveFailures) (other : String) :
    Supervised cfg db (s.checkThread cfg other) := by
  unfold QueueJobRunner.checkThread
  split
  · exact h
  split
  · exact h
  · next thread ht =>
    split
    · exact h
    · next hp =>
      have hdead := not_not.mp hp
      have hw := (workerThread_eq_some ht).1
      have hs : Supervised cfg db (s.countDeath cfg thread) := by
        unfold countDeath
        split
        · exact h
        · next hn => exact h.count hr hpos (fun _ ↦ hw) hn
      have hr' : Roster (s.countDeath cfg thread) := hr.countDeath hw (by simp [hdead])
      obtain ⟨hthreads, hphase, hc, _, _⟩ := countDeath_frame cfg (s := s) thread
      split
      · exact h
      · dsimp only
        split
        · exact hs
        · next hq =>
          refine hs.restart hr' hpos ?_ (by rw [hphase, hdead]) hc hq
          rw [workerThread, hthreads]
          exact ht

/-- A round of the health check in another database. -/
theorem untouched_checkThread (hne : other ≠ db) :
    Untouched db s (s.checkThread cfg other) := by
  have hrefl : Untouched db s s := untouched_quiet le_rfl fun _ _ ↦ id
  unfold QueueJobRunner.checkThread
  split
  · exact hrefl
  split
  · exact hrefl
  · next thread ht =>
    have hthread := (workerThread_eq_some ht).2
    have hcount : Untouched db s (s.countDeath cfg thread) := by
      unfold countDeath
      split
      · exact hrefl
      · exact untouched_count (hthread ▸ hne)
    split
    · exact hrefl
    split
    · exact hrefl
    · dsimp only
      split
      · exact hcount
      · exact hcount.trans (untouched_restart hne)

/-- A round of the health check ends no thread and stops nothing. -/
theorem checkThread_frame : (s.checkThread cfg other).phase = s.phase ∧
    (s.checkThread cfg other).stopEvent = s.stopEvent := by
  have hrestart (u : QueueJobRunner) :
      (u.restart other).phase = u.phase ∧ (u.restart other).stopEvent = u.stopEvent := by
    unfold QueueJobRunner.restart forgetThread
    split <;> exact ⟨rfl, rfl⟩
  unfold QueueJobRunner.checkThread
  split
  · exact ⟨rfl, rfl⟩
  split
  · exact ⟨rfl, rfl⟩
  · next thread ht =>
    obtain ⟨_, hp, _, _, hs⟩ := countDeath_frame cfg (s := s) thread
    split
    · exact ⟨rfl, rfl⟩
    split
    · exact ⟨rfl, rfl⟩
    · dsimp only
      split
      · exact ⟨hp, hs⟩
      · exact ⟨(hrestart _).1.trans hp, (hrestart _).2.trans hs⟩

/-- The first thread of a database is registered. -/
theorem Supervised.start (h : Supervised cfg db s) (hr : Roster s)
    (hpos : 1 ≤ cfg.maximumConsecutiveFailures) (hn : s.workerThread other = none) :
    Supervised cfg db (s.startWorkerThread other) := by
  by_cases hdb : other = db
  · subst hdb
    have hnone (t : WorkerThread) (ht : t ∈ s.workerThreads) : t.database ≠ other := by
      simpa using List.find?_eq_none.mp hn t ht
    have hnew : (⟨s.nextThread, other⟩ : WorkerThread) ∉ s.deathsCounted := fun hd ↦
      Nat.lt_irrefl _ (hr.fresh _ (hr.stamped _ (hr.counted _ hd)).1)
    have hfree (hq : other ∈ s.quarantinedDatabases) : False := by
      obtain ⟨t, ht, hdb, _⟩ := h.armed hq
      exact hnone t ht hdb
    refine ⟨fun t hst hdb ↦ ?_, fun _ ↦ ⟨⟨s.nextThread, other⟩, ?_, rfl⟩,
      fun hq ↦ (hfree hq).elim, ?_⟩
    · rcases List.mem_cons.mp hst with rfl | hst
      · exact .inl (List.mem_append_right _ List.mem_cons_self)
      · obtain ⟨u, hu, hudb⟩ := h.manned ⟨t, hst, hdb⟩
        exact absurd hudb (hnone u hu)
    · exact List.mem_append_right _ List.mem_cons_self
    · convert h.kept using 1
      simp only [service, State.mk.injEq]
      refine ⟨rfl, rfl, rfl, ?_, rfl, rfl⟩
      have hany : (s.workerThreads.any fun t ↦ t.database == other && s.deathsCounted.contains t) =
          false := by
        rw [List.any_eq_false]
        intro t ht
        simp [hnone t ht]
      rw [hany]
      simp [startWorkerThread, List.any_eq_false, hnew]
      exact fun t ht _ heq ↦ absurd heq (hnone t ht)
  · exact h.untouched (untouched_start hdb) hpos

/-- Another database is removed. -/
theorem untouched_stop (hne : other ≠ db) : Untouched db s (s.stopWorkerThread other) := by
  refine (untouched_forget hne).trans ?_
  refine ⟨le_rfl, Function.update_of_ne hne.symm _ _, ?_, fun _ _ ↦ Iff.rfl, fun _ _ ↦ Iff.rfl,
    fun _ _ ↦ Iff.rfl, fun _ _ ↦ id, rfl, fun _ _ ↦ id, rfl⟩
  simp [QueueJobRunner.stopWorkerThread, hne.symm]

/-- A removal stops no pass. -/
theorem stopEvent_stop (other : String) :
    (s.stopWorkerThread other).stopEvent = s.stopEvent := by
  unfold QueueJobRunner.stopWorkerThread forgetThread
  split <;> rfl

/-- A database that a pass confirms, if it has a thread. -/
structure Confirmed (cfg : RunnerConfig) (db : String) (d : Discovery) (s : QueueJobRunner) :
    Prop where
  roster : Roster s
  supervised : Supervised cfg db s
  confirmed : (∃ t ∈ s.workerThreads, t.database = db) → d.confirms db = true

theorem Confirmed.expireQuarantine {d : Discovery} (h : Confirmed cfg db d s)
    (hpos : 1 ≤ cfg.maximumConsecutiveFailures) (other : String) :
    Confirmed cfg db d (s.expireQuarantine cfg other) := by
  refine ⟨h.roster.expireQuarantine other, h.supervised.expireQuarantine hpos other, ?_⟩
  obtain ⟨now, delays, _, listed, _, heq⟩ := expireQuarantine_eq cfg (s := s) other
  rw [heq]
  exact h.confirmed

theorem Confirmed.discover {d : Discovery} (h : Confirmed cfg db d s)
    (hpos : 1 ≤ cfg.maximumConsecutiveFailures) (hname : other ∈ d.databaseNames) :
    Confirmed cfg db d (s.discover cfg d other) := by
  unfold QueueJobRunner.discover
  split
  · exact h
  · next hmod =>
    split
    · exact h
    · next hnone =>
      split
      · exact h
      · have hmod := not_not.mp hmod
        have hnone : s.workerThread other = none := by simpa using hnone
        have hquiet := h.roster.quiet s.elapse.now s.elapse.delays s.failureTimestamps
          s.quarantinedDatabases
        have hlater : Supervised cfg db s.elapse := h.supervised.untouched
          ⟨now_le_elapse, rfl, Iff.rfl, fun _ _ ↦ Iff.rfl, fun _ _ ↦ Iff.rfl,
            fun _ _ ↦ Iff.rfl, fun _ _ ↦ id, rfl, fun _ _ ↦ id, rfl⟩ hpos
        refine ⟨hquiet.start other, hlater.start hquiet hpos hnone, ?_⟩
        rintro ⟨t, ht, hdb⟩
        rcases List.mem_append.mp ht with ht | ht
        · exact h.confirmed ⟨t, List.mem_of_mem_filter ht, hdb⟩
        · rw [List.mem_singleton.mp ht] at hdb
          rw [← hdb]
          simp [Discovery.confirms, hname, hmod]

/-- A pass that does not find the database gone keeps it supervised. -/
theorem Supervised.discoverDatabases (h : Supervised cfg db s) (hr : Roster s)
    (hpos : 1 ≤ cfg.maximumConsecutiveFailures) {d : Discovery}
    (hd : (∃ t ∈ s.workerThreads, t.database = db) → d.confirms db = true) :
    Supervised cfg db (s.discoverDatabases cfg d) := by
  have hstarted : Confirmed cfg db d ((sortedNames d.databaseNames).foldl
      (fun s db ↦ s.discover cfg d db) (s.expireQuarantines cfg)) := by
    apply foldl_keeps
    · exact foldl_keeps _ ⟨hr, h, hd⟩ fun u name _ hu ↦ hu.expireQuarantine hpos name
    · intro u name hname hu
      exact hu.discover hpos ((List.mem_insertionSort _).mp hname)
  apply foldl_keeps
  · exact hstarted.supervised
  · intro u name hname hu
    obtain ⟨t, ht, rfl⟩ := List.mem_map.mp hname
    unfold hotRemove
    split
    · exact hu
    · next hn =>
      have hne : t.database ≠ db := fun hdb ↦ hn (hdb ▸ hstarted.confirmed ⟨t, ht, hdb⟩)
      exact hu.untouched (untouched_stop hne) hpos

end Supervised

/-- A pass of the supervisor does not remove the database. -/
def NeverRemoves (db : String) (s : QueueJobRunner) : RunnerAction → Prop
  | .discoverDatabases d _ => (∃ t ∈ s.workerThreads, t.database = db) → d.confirms db = true
  | _ => True

/-- The restarts of a database are within the budget, and until the cleanup it is
supervised. -/
structure Within (cfg : RunnerConfig) (db : String) (s : QueueJobRunner) : Prop where
  roster : Roster s
  budget : ∀ t, (s.restartsOf db).countP (fun r ↦
    decide (t ≤ r ∧ r ≤ t + cfg.failureWindowSeconds * second)) ≤
      cfg.maximumConsecutiveFailures.toNat
  supervised : s.cleanedUp = false → Supervised cfg db s

section Within

variable {cfg : RunnerConfig} {s s' : QueueJobRunner} {db : String} {a : RunnerAction}

/-- A supervised database is within its budget. -/
theorem Supervised.within (h : Supervised cfg db s) (hr : Roster s) : Within cfg db s :=
  ⟨hr, h.kept.budget, fun _ ↦ h⟩

/-- A cleanup restarts nothing. -/
theorem restarts_cleanup (s : QueueJobRunner) : s.cleanup.restarts = s.restarts := by
  apply foldl_keeps (P := fun u ↦ u.restarts = s.restarts) _ rfl
  intro u other _ hu
  rw [← hu]
  unfold stopWorkerThread forgetThread
  split <;> rfl

/-- Behind the cleanup nothing is restarted. -/
theorem restarts_of_cleanedUp (h : s.next cfg a = some s') (hc : s.cleanedUp = true) :
    s'.restarts = s.restarts ∧ s'.cleanedUp = true := by
  cases a with
  | tick | stop => cases h; exact ⟨rfl, hc⟩
  | crash thread delays =>
    obtain ⟨_, h⟩ := Option.ite_none_right_eq_some.mp h
    cases h
    obtain ⟨_, _, _, _, hrestarts, hcleaned⟩ := addDeath_frame cfg
      (s := { s with delays, phase := Function.update s.phase thread .crashed }) thread
    exact ⟨hrestarts, hcleaned.trans hc⟩
  | ends thread =>
    obtain ⟨_, h⟩ := Option.ite_none_right_eq_some.mp h
    cases h
    exact ⟨rfl, hc⟩
  | discoverDatabases | checkThreadHealth | cleanup => simp [next, hc] at h

/-- Until the cleanup, a database that is not removed stays supervised. -/
theorem supervised_next (h : s.next cfg a = some s') (hr : Roster s)
    (hs : Supervised cfg db s) (hpos : 1 ≤ cfg.maximumConsecutiveFailures)
    (hkeep : NeverRemoves db s a) (ha : a ≠ .cleanup) : Supervised cfg db s' := by
  have hdelays (delays : List Nat) : Supervised cfg db { s with delays } :=
    hs.untouched (untouched_quiet le_rfl fun _ _ ↦ id) hpos
  have hroster (delays : List Nat) : Roster { s with delays } :=
    hr.quiet s.now delays s.failureTimestamps s.quarantinedDatabases
  cases a with
  | tick elapsed =>
    cases h
    have hle : s.now ≤ s.now + elapsed := Int.le_add_of_nonneg_right (Int.natCast_nonneg _)
    exact hs.untouched (untouched_quiet hle fun _ _ ↦ id) hpos
  | stop =>
    cases h
    exact hs.untouched (untouched_quiet le_rfl fun _ _ ↦ id) hpos
  | crash thread delays =>
    obtain ⟨⟨hst, hp⟩, h⟩ := Option.ite_none_right_eq_some.mp h
    cases h
    have hcrashed : Supervised cfg db
        { s with delays, phase := Function.update s.phase thread .crashed } := by
      refine hs.untouched (untouched_quiet le_rfl fun t _ ht ↦ ?_) hpos
      have hne : t ≠ thread := by
        rintro rfl
        rw [hp] at ht
        cases ht
      exact (Function.update_of_ne hne _ _).trans ht
    refine hcrashed.count ((hroster delays).leave hst nofun) hpos (fun hdb ↦ ?_) fun hc ↦ ?_
    · rcases hs.followed thread hst hdb with hw | ⟨hd, _⟩
      · exact hw
      · rw [hp] at hd
        cases hd
    · exact hr.not_stamped_of_serving hp (hr.counted thread hc)
  | ends thread =>
    obtain ⟨_, h⟩ := Option.ite_none_right_eq_some.mp h
    cases h
    refine hs.untouched (untouched_quiet le_rfl fun t _ ht ↦ ?_) hpos
    by_cases heq : t = thread
    · rw [heq]
      exact Function.update_self _ _ _
    · exact (Function.update_of_ne heq _ _).trans ht
  | discoverDatabases d delays =>
    obtain ⟨_, h⟩ := Option.ite_none_left_eq_some.mp h
    cases h
    exact (hdelays delays).discoverDatabases (hroster delays) hpos hkeep
  | checkThreadHealth delays =>
    obtain ⟨_, h⟩ := Option.ite_none_left_eq_some.mp h
    cases h
    exact (foldl_keeps (P := fun u ↦ Roster u ∧ Supervised cfg db u) _
      ⟨hroster delays, hdelays delays⟩ fun u other _ hu ↦
        ⟨hu.1.checkThread other, hu.2.checkThread hu.1 hpos other⟩).2
  | cleanup => exact absurd rfl ha

/-- Every step that does not remove the database keeps its budget. -/
theorem within_next (h : s.next cfg a = some s') (hw : Within cfg db s)
    (hpos : 1 ≤ cfg.maximumConsecutiveFailures) (hkeep : NeverRemoves db s a) :
    Within cfg db s' := by
  have hr := roster_next h hw.roster
  have hsame (hrestarts : s'.restarts = s.restarts) (hc : s'.cleanedUp = true) :
      Within cfg db s' := by
    refine ⟨hr, fun t ↦ ?_, fun hn ↦ absurd (hn.symm.trans hc) Bool.false_ne_true⟩
    rw [restartsOf, hrestarts]
    exact hw.budget t
  cases hc : s.cleanedUp with
  | true =>
    obtain ⟨hrestarts, hc'⟩ := restarts_of_cleanedUp h hc
    exact hsame hrestarts hc'
  | false =>
    by_cases ha : a = .cleanup
    · subst ha
      obtain ⟨_, h⟩ := Option.ite_none_right_eq_some.mp h
      cases h
      exact hsame (restarts_cleanup s) rfl
    · exact (supervised_next h hw.roster (hw.supervised hc) hpos hkeep ha).within hr

/-- The death of a database's thread is counted. -/
def Settled (db : String) (s : QueueJobRunner) : Prop :=
  ∀ t ∈ s.workerThreads, t.database = db → s.phase t = .dead → t ∈ s.deathsCounted

/-- The health check counts the thread of a database that has died, or starts another. -/
theorem settled_checkThread (hr : Roster s) (hs : Supervised cfg db s)
    (hstop : s.stopEvent = false) : Settled db (s.checkThread cfg db) := by
  unfold checkThread
  rw [if_neg (by simp [hstop])]
  split
  · next hnone =>
    intro t ht hdb
    simpa [hdb] using List.find?_eq_none.mp hnone t ht
  · next thread hthread =>
    obtain ⟨hw, hdb⟩ := workerThread_eq_some hthread
    have honly (t : WorkerThread) (ht : t ∈ s.workerThreads) (htdb : t.database = db) :
        t = thread := hr.unique t ht thread hw (htdb.trans hdb.symm)
    obtain ⟨hthreads, hphase, hc, _, _⟩ := countDeath_frame cfg (s := s) thread
    split
    · next hp =>
      intro t ht htdb hd
      exact absurd (honly t ht htdb ▸ hd) hp
    split
    · next hq =>
      intro t ht htdb _
      obtain ⟨u, hu, hudb, huc⟩ := hs.armed hq
      rw [honly t ht htdb, ← honly u hu hudb]
      exact huc
    · dsimp only
      split
      · intro t ht htdb _
        rw [hthreads] at ht
        rwa [honly t ht htdb]
      · intro t ht htdb hd
        have hr' : Roster (s.countDeath cfg thread) := hr.countDeath hw (by simp_all)
        have hentry : (s.countDeath cfg thread).workerThread db = some thread := by
          rw [workerThread, hthreads]
          exact hthread
        obtain ⟨now, delays, _, heq⟩ := restart_eq hentry
        rw [heq] at ht hd
        rcases List.mem_append.mp ht with ht | ht
        · simp [htdb] at ht
        · rw [List.mem_singleton.mp ht] at hd
          have hborn : (⟨(s.countDeath cfg thread).nextThread, db⟩ : WorkerThread) ∉
              (s.countDeath cfg thread).started := fun hst ↦
            Nat.lt_irrefl _ (hr'.fresh _ hst)
          rw [hr'.unborn _ hborn] at hd
          cases hd

/-- The rounds of the other databases leave it counted. -/
theorem settled_foldl {names : List String} (hr : Roster s) (hs : Supervised cfg db s)
    (hpos : 1 ≤ cfg.maximumConsecutiveFailures) (hstop : s.stopEvent = false)
    (h : Settled db s ∨ db ∈ names) : Settled db (names.foldl (checkThread cfg) s) := by
  induction names generalizing s with
  | nil => exact h.resolve_right List.not_mem_nil
  | cons other names ih =>
    obtain ⟨hphase, hstop'⟩ : (s.checkThread cfg other).phase = s.phase ∧
        (s.checkThread cfg other).stopEvent = s.stopEvent := checkThread_frame
    refine ih (hr.checkThread other) (hs.checkThread hr hpos other) (hstop'.trans hstop) ?_
    by_cases heq : other = db
    · rw [heq]
      exact .inl (settled_checkThread hr hs hstop)
    · refine h.imp (fun hset t ht hdb hd ↦ ?_) fun hmem ↦ ?_
      · have hu : Untouched db s (s.checkThread cfg other) := untouched_checkThread heq
        rw [hphase] at hd
        exact (hu.counted t hdb).mpr (hset t ((hu.registered t hdb).mp ht) hdb hd)
      · exact (List.mem_cons.mp hmem).resolve_left fun hdb ↦ heq hdb.symm

/-- A health check ends no thread. -/
theorem phase_checked {delays : List Nat}
    (h : s.next cfg (.checkThreadHealth delays) = some s') : s'.phase = s.phase := by
  obtain ⟨_, h⟩ := Option.ite_none_left_eq_some.mp h
  cases h
  exact foldl_keeps (P := fun u ↦ u.phase = s.phase) _ rfl fun u other _ hu ↦
    checkThread_frame.1.trans hu

/-- Behind a health check, every dead thread of the database is stamped. -/
theorem stamped_of_checked {delays : List Nat} {thread : WorkerThread}
    (h : s.next cfg (.checkThreadHealth delays) = some s') (hw : Within cfg db s)
    (hpos : 1 ≤ cfg.maximumConsecutiveFailures) (hstop : s.stopEvent = false)
    (hst : thread ∈ s'.started) (hdb : thread.database = db) (hdead : s'.phase thread = .dead) :
    thread ∈ s'.stampedThreads := by
  have hc : s.cleanedUp = false := by
    by_contra hc
    simp [next, hc] at h
  have hs := hw.supervised hc
  have hs' := supervised_next h hw.roster hs hpos trivial nofun
  have hr' := roster_next h hw.roster
  rcases hs'.followed thread hst hdb with hreg | ⟨_, hstamped⟩
  · apply hr'.counted
    obtain ⟨_, h⟩ := Option.ite_none_left_eq_some.mp h
    cases h
    have hr := hw.roster.quiet s.now delays s.failureTimestamps s.quarantinedDatabases
    have hsup : Supervised cfg db { s with delays } :=
      hs.untouched (untouched_quiet le_rfl fun _ _ ↦ id) hpos
    have hset : Settled db (({ s with delays } : QueueJobRunner).checkThreadHealth cfg) := by
      refine settled_foldl hr hsup hpos hstop ?_
      by_cases hnone : ∃ t ∈ s.workerThreads, t.database = db
      · obtain ⟨t, ht, htdb⟩ := hnone
        exact .inr (List.mem_map.mpr ⟨t, ht, htdb⟩)
      · exact .inl fun t ht htdb ↦ absurd ⟨t, ht, htdb⟩ hnone
    exact hset thread hreg hdb hdead
  · exact hstamped

end Within

/-- The supervisor forgets neither a thread nor a stamp. -/
structure Extends (s s' : QueueJobRunner) : Prop where
  started : s.started ⊆ s'.started
  stamps : s.stamps ⊆ s'.stamps

section Extends

variable {cfg : RunnerConfig} {s s' : QueueJobRunner} {a : RunnerAction}

/-- Nothing is forgotten when both histories are the same. -/
theorem extends_of_eq (h : s'.started = s.started) (hs : s'.stamps = s.stamps) : Extends s s' :=
  ⟨by rw [h]; exact List.Subset.refl _, by rw [hs]; exact List.Subset.refl _⟩

theorem Extends.trans {t : QueueJobRunner} (h : Extends s t) (h' : Extends t s') :
    Extends s s' :=
  ⟨List.Subset.trans h.started h'.started, List.Subset.trans h.stamps h'.stamps⟩

/-- A loop over databases whose rounds forget nothing. -/
theorem extends_foldl {f : QueueJobRunner → String → QueueJobRunner} (names : List String)
    (hf : ∀ u db, Extends u (f u db)) : Extends s (names.foldl f s) :=
  foldl_keeps (P := Extends s) names (extends_of_eq rfl rfl) fun u db _ hu ↦ hu.trans (hf u db)

theorem extends_addDeath (thread : WorkerThread) : Extends s (s.addDeath cfg thread) := by
  obtain ⟨_, _, _, _, _, heq⟩ := addDeath_eq cfg (s := s) thread
  rw [heq]
  exact ⟨List.Subset.refl _, List.subset_cons_self _ _⟩

theorem extends_forgetThread (db : String) : Extends s (s.forgetThread db) := by
  unfold forgetThread
  split <;> exact extends_of_eq rfl rfl

theorem extends_stopWorkerThread (db : String) : Extends s (s.stopWorkerThread db) := by
  have h := extends_forgetThread (s := s) db
  exact ⟨h.started, h.stamps⟩

theorem extends_checkThread (db : String) : Extends s (s.checkThread cfg db) := by
  unfold checkThread
  split
  · exact extends_of_eq rfl rfl
  split
  · exact extends_of_eq rfl rfl
  · next thread _ =>
    have hcount : Extends s (s.countDeath cfg thread) := by
      unfold countDeath
      split
      · exact extends_of_eq rfl rfl
      · exact extends_addDeath thread
    have hrestart (u : QueueJobRunner) : Extends u (u.restart db) := by
      unfold restart forgetThread
      split <;> exact ⟨List.subset_cons_self _ _, List.Subset.refl _⟩
    split
    · exact extends_of_eq rfl rfl
    split
    · exact extends_of_eq rfl rfl
    · dsimp only
      split
      · exact hcount
      · exact hcount.trans (hrestart _)

theorem extends_discoverDatabases (d : Discovery) : Extends s (s.discoverDatabases cfg d) := by
  refine (Extends.trans (t := s.expireQuarantines cfg) ?_ ?_).trans
    (extends_foldl _ fun u db ↦ ?_)
  · refine extends_foldl _ fun u db ↦ ?_
    obtain ⟨_, _, _, _, _, heq⟩ := expireQuarantine_eq cfg (s := u) db
    rw [heq]
    exact ⟨List.Subset.refl _, List.Subset.refl _⟩
  · refine extends_foldl _ fun u db ↦ ?_
    unfold discover
    split_ifs
    · exact extends_of_eq rfl rfl
    · exact extends_of_eq rfl rfl
    · exact extends_of_eq rfl rfl
    · exact ⟨List.subset_cons_self _ _, List.Subset.refl _⟩
  · unfold hotRemove
    split
    · exact extends_of_eq rfl rfl
    · exact extends_stopWorkerThread db

/-- No step forgets a thread or a stamp. -/
theorem extends_next (h : s.next cfg a = some s') : Extends s s' := by
  cases a with
  | tick | stop => cases h; exact extends_of_eq rfl rfl
  | crash thread delays =>
    obtain ⟨_, h⟩ := Option.ite_none_right_eq_some.mp h
    cases h
    let u : QueueJobRunner :=
      { s with delays, phase := Function.update s.phase thread .crashed }
    have hadd : Extends u (u.addDeath cfg thread) := extends_addDeath thread
    exact ⟨hadd.started, hadd.stamps⟩
  | ends thread =>
    obtain ⟨_, h⟩ := Option.ite_none_right_eq_some.mp h
    cases h
    exact extends_of_eq rfl rfl
  | discoverDatabases d delays =>
    obtain ⟨_, h⟩ := Option.ite_none_left_eq_some.mp h
    cases h
    have hpass : Extends { s with delays } (discoverDatabases cfg { s with delays } d) :=
      extends_discoverDatabases d
    exact ⟨hpass.started, hpass.stamps⟩
  | checkThreadHealth delays =>
    obtain ⟨_, h⟩ := Option.ite_none_left_eq_some.mp h
    cases h
    have hpass : Extends { s with delays } (checkThreadHealth cfg { s with delays }) :=
      extends_foldl _ fun u db ↦ extends_checkThread db
    exact ⟨hpass.started, hpass.stamps⟩
  | cleanup =>
    obtain ⟨_, h⟩ := Option.ite_none_right_eq_some.mp h
    cases h
    have hpass : Extends s s.cleanup := extends_foldl _ fun u db ↦ extends_stopWorkerThread db
    exact ⟨hpass.started, hpass.stamps⟩

end Extends

/-- The worker thread of a database that is never removed is restarted at most
`maximum_consecutive_failures` times in a window, and a dead thread is stamped once: never
twice, and behind the next health check it is. -/
theorem restarts_bounded {cfg : RunnerConfig} {db : String}
    {past : List (QueueJobRunner × RunnerAction)} {s : QueueJobRunner}
    (hpos : 1 ≤ cfg.maximumConsecutiveFailures) (h : RunnerRun cfg past s)
    (hkeep : Guarded (NeverRemoves db) past) :
    (∀ t, (s.restartsOf db).countP (fun r ↦
      decide (t ≤ r ∧ r ≤ t + cfg.failureWindowSeconds * second)) ≤
        cfg.maximumConsecutiveFailures) ∧
    (∀ thread, s.stampedThreads.count thread ≤ 1) ∧
    ∀ mid u delays old thread, past = mid ++ (u, .checkThreadHealth delays) :: old →
      u.stopEvent = false → thread ∈ u.started → thread.database = db →
      u.phase thread = .dead → s.stampedThreads.count thread = 1 := by
  have hwithin {past : List (QueueJobRunner × RunnerAction)} {s : QueueJobRunner}
      (h : RunnerRun cfg past s) (hkeep : Guarded (NeverRemoves db) past) :
      Within cfg db s := by
    apply h.invariant hkeep
    · rintro s ⟨now, rfl⟩
      have hinit : RunnerRun cfg [] { now } := .start ⟨now, rfl⟩
      exact Supervised.within ⟨nofun, nofun, nofun, kept_init (by omega)⟩ (roster hinit)
    · exact fun s a s' hw ha hs ↦ within_next hs hw hpos ha
  have hnodup (thread : WorkerThread) : s.stampedThreads.count thread ≤ 1 :=
    List.nodup_iff_count_le_one.mp (hwithin h hkeep).roster.once thread
  refine ⟨fun t ↦ ?_, hnodup, ?_⟩
  · have hb := (hwithin h hkeep).budget t
    omega
  · rintro mid u delays old thread rfl hstop hst hdb hdead
    have hold : Guarded (NeverRemoves db) old := fun p hp ↦
      hkeep p (List.mem_append_right mid (List.mem_cons_of_mem _ hp))
    obtain ⟨t, ht, hmid⟩ := Run.split h
    obtain ⟨hu, hcheck⟩ := run_cons.mp ht
    have hstamped : thread ∈ t.stampedThreads := stamped_of_checked hcheck
      (hwithin hu hold) hpos hstop ((extends_next hcheck).started hst) hdb
      (by rw [phase_checked hcheck, hdead])
    have hlater : Extends t s := hmid.always (P := Extends t)
      (fun _ heq ↦ heq ▸ extends_of_eq rfl rfl) fun _ _ _ hu hs ↦ hu.trans (extends_next hs)
    have hpos : 0 < s.stampedThreads.count thread :=
      List.count_pos_iff.mpr (List.map_subset _ hlater.stamps hstamped)
    exact Nat.le_antisymm (hnodup thread) hpos

instance (db : String) (s : QueueJobRunner) (a : RunnerAction) :
    Decidable (NeverRemoves db s a) :=
  match a with
  | .discoverDatabases d _ =>
    inferInstanceAs (Decidable ((∃ t ∈ s.workerThreads, t.database = db) → d.confirms db = true))
  | .tick _ | .stop | .crash _ _ | .ends _ | .checkThreadHealth _ | .cleanup =>
    inferInstanceAs (Decidable True)

/-- A pass that finds one database with the module. -/
def findsProd : Discovery where
  databaseNames := ["prod"]
  hasModule := fun _ ↦ some true
  advisoryLock := fun _ ↦ some true

/-- A worker thread returns, and the one started for it crashes. -/
def diesTwice : List RunnerAction :=
  [.discoverDatabases findsProd [], .ends ⟨0, "prod"⟩, .checkThreadHealth [], .tick 10000000,
    .crash ⟨1, "prod"⟩ [], .ends ⟨1, "prod"⟩, .checkThreadHealth []]

/-- A database that dies twice is restarted once. -/
theorem restarts_bounded_diesTwice : ∃ past s,
    RunnerRun { maximumConsecutiveFailures := 2 } past s ∧ s.restartsOf "prod" = [0] ∧
      (∀ t, (s.restartsOf "prod").countP (fun r ↦
        decide (t ≤ r ∧ r ≤ t + 300 * second)) ≤ (2 : Int)) ∧
      ∀ thread, s.stampedThreads.count thread ≤ 1 := by
  have hrun : (replay (next { maximumConsecutiveFailures := 2 }) { now := 0 } diesTwice).map
      (fun r ↦ (decide (∀ p ∈ r.1, NeverRemoves "prod" p.1 p.2), r.2.restartsOf "prod")) =
      some (true, [0]) := by decide +kernel
  obtain ⟨⟨past, s⟩, hs, heq⟩ := Option.map_eq_some_iff.mp hrun
  simp only [Prod.mk.injEq, decide_eq_true_eq] at heq
  have hrun : RunnerRun { maximumConsecutiveFailures := 2 } past s :=
    Run.of_replay id ⟨0, rfl⟩ hs
  obtain ⟨hbudget, honce, _⟩ := restarts_bounded (by decide) hrun fun p hp ↦ heq.1 p hp
  exact ⟨past, s, hrun, heq.2, hbudget, honce⟩

/-! ### Quarantines expire -/

/-- The database of a dead thread whose death is counted, all its failures being older than
the window. -/
structure Expired (cfg : RunnerConfig) (thread : WorkerThread) (s : QueueJobRunner) : Prop where
  roster : Roster s
  registered : thread ∈ s.workerThreads
  dead : s.phase thread = .dead
  counted : thread ∈ s.deathsCounted
  running : s.stopEvent = false
  old : ∀ ts ∈ s.failureTimestamps thread.database,
    ts < s.now - cfg.failureWindowSeconds * second

/-- It waits for the health check outside the quarantine. -/
structure Released (cfg : RunnerConfig) (thread : WorkerThread) (s : QueueJobRunner) : Prop
    extends Expired cfg thread s where
  free : thread.database ∉ s.quarantinedDatabases

/-- A new thread serves the database outside the quarantine. -/
structure Replaced (db : String) (before : List WorkerThread) (s : QueueJobRunner) : Prop where
  roster : Roster s
  free : db ∉ s.quarantinedDatabases
  serving : ∃ t ∈ s.workerThreads, t.database = db ∧ t ∉ before ∧ s.phase t = .serving

section Expired

variable {cfg : RunnerConfig} {s s' : QueueJobRunner} {thread : WorkerThread} {other : String}
  {before : List WorkerThread}

/-- Its entry is the one of its database. -/
theorem Expired.workerThread (h : Expired cfg thread s) :
    s.workerThread thread.database = some thread :=
  workerThread_of_mem h.roster h.registered

/-- Steps of other databases leave it alone. -/
theorem Expired.untouched (h : Expired cfg thread s) (hu : Untouched thread.database s s')
    (hr : Roster s') (hstop : s'.stopEvent = s.stopEvent) : Expired cfg thread s' where
  roster := hr
  registered := (hu.registered thread rfl).mpr h.registered
  dead := hu.phase thread rfl h.dead
  counted := (hu.counted thread rfl).mpr h.counted
  running := hstop.trans h.running
  old ts hts := by
    rw [hu.listed] at hts
    exact (h.old ts hts).trans_le (sub_le_sub_right hu.now _)

theorem Released.untouched (h : Released cfg thread s) (hu : Untouched thread.database s s')
    (hr : Roster s') (hstop : s'.stopEvent = s.stopEvent) : Released cfg thread s' :=
  ⟨h.toExpired.untouched hu hr hstop, fun hq ↦ h.free (hu.quarantined.mp hq)⟩

/-- A look at any quarantine leaves it expired. -/
theorem Expired.expireQuarantine (h : Expired cfg thread s) (other : String) :
    Expired cfg thread (s.expireQuarantine cfg other) := by
  have hr : Roster (s.expireQuarantine cfg other) := h.roster.expireQuarantine other
  obtain ⟨now, delays, hle, listed, hlisted, heq⟩ :=
    expireQuarantine_eq cfg (s := s) other
  by_cases hdb : other = thread.database
  · subst hdb
    rw [heq] at hr ⊢
    refine ⟨hr, h.registered, h.dead, h.counted, h.running, fun ts hts ↦ ?_⟩
    dsimp only at hts
    rw [Function.update_self, hlisted] at hts
    exact (h.old ts (List.mem_of_mem_filter hts)).trans_le (sub_le_sub_right hle _)
  · exact h.untouched (untouched_expireQuarantine hdb) hr (by rw [heq])

/-- A look at its own quarantine lifts it. -/
theorem Expired.expireQuarantine_self (h : Expired cfg thread s)
    (hpos : 1 ≤ cfg.maximumConsecutiveFailures) :
    thread.database ∉ (s.expireQuarantine cfg thread.database).quarantinedDatabases := by
  obtain ⟨now, delays, hle, listed, hlisted, heq⟩ :=
    expireQuarantine_eq cfg (s := s) thread.database
  have hnil : listed = [] := by
    rw [hlisted, RunnerConfig.remaining, List.filter_eq_nil_iff]
    intro ts hts
    rw [decide_eq_true_eq, not_le]
    exact (h.old ts hts).trans_le (sub_le_sub_right hle _)
  rw [heq, hnil]
  have hlow : ¬ cfg.maximumConsecutiveFailures ≤ (([] : List Time).length : Int) := by
    simp only [List.length_nil, Int.natCast_zero]
    omega
  dsimp only
  rw [if_neg hlow]
  simp

/-- A quarantine that is not armed is not armed by a look at it. -/
theorem expireQuarantine_free {db : String} (h : db ∉ s.quarantinedDatabases) :
    db ∉ (s.expireQuarantine cfg other).quarantinedDatabases := by
  obtain ⟨now, delays, _, listed, _, heq⟩ := expireQuarantine_eq cfg (s := s) other
  rw [heq]
  dsimp only
  split
  · exact h
  · exact fun hq ↦ h (List.mem_of_mem_filter hq)

/-- The looks at all quarantines release the database. -/
theorem Expired.expireQuarantines (h : Expired cfg thread s)
    (hpos : 1 ≤ cfg.maximumConsecutiveFailures) :
    Released cfg thread (s.expireQuarantines cfg) := by
  have hfold (names : List String) : ∀ s : QueueJobRunner, Expired cfg thread s →
      thread.database ∉ s.quarantinedDatabases ∨ thread.database ∈ names →
      Released cfg thread (names.foldl (QueueJobRunner.expireQuarantine cfg) s) := by
    induction names with
    | nil => exact fun s h hfree ↦ ⟨h, hfree.resolve_right List.not_mem_nil⟩
    | cons other names ih =>
      intro s h hfree
      refine ih _ (h.expireQuarantine other) ?_
      by_cases heq : other = thread.database
      · subst heq
        exact .inl (h.expireQuarantine_self hpos)
      · exact hfree.imp expireQuarantine_free fun hm ↦
          (List.mem_cons.mp hm).resolve_left (Ne.symm heq)
  apply hfold _ s h
  rw [sortedNames, List.mem_insertionSort]
  exact (Classical.em _).symm

/-- The rest of a pass that confirms the database keeps it released. -/
theorem Released.discoverDatabases (h : Expired cfg thread s) {d : Discovery}
    (hpos : 1 ≤ cfg.maximumConsecutiveFailures) (hd : d.confirms thread.database = true) :
    Released cfg thread (s.discoverDatabases cfg d) := by
  apply foldl_keeps
  · refine foldl_keeps _ (h.expireQuarantines hpos) fun u other _ hu ↦ ?_
    have hsome : (u.workerThread thread.database).isSome = true := by
      rw [hu.workerThread]
      rfl
    unfold discover
    split_ifs with _ hother
    · exact hu
    · exact hu
    · exact hu
    · have hne : other ≠ thread.database := fun heq ↦ hother (heq ▸ hsome)
      have hlater : Untouched thread.database u u.elapse := ⟨now_le_elapse, rfl, Iff.rfl,
        fun _ _ ↦ Iff.rfl, fun _ _ ↦ Iff.rfl, fun _ _ ↦ Iff.rfl, fun _ _ ↦ id, rfl,
        fun _ _ ↦ id, rfl⟩
      have hquiet := hu.roster.quiet u.elapse.now u.elapse.delays u.failureTimestamps
        u.quarantinedDatabases
      exact hu.untouched (hlater.trans (untouched_start hne)) (hquiet.start other) rfl
  · intro u other _ hu
    unfold hotRemove
    split
    · exact hu
    · next hother =>
      have hne : other ≠ thread.database := fun heq ↦ hother (heq ▸ hd)
      exact hu.untouched (untouched_stop hne) (hu.roster.stopWorkerThread other)
        (stopEvent_stop other)

/-- A round of the health check keeps the database released, or replaces its thread. -/
theorem Released.checkThread (h : Released cfg thread s) (hbefore : before ⊆ s.started) :
    Released cfg thread (s.checkThread cfg other) ∧ other ≠ thread.database ∨
      Replaced thread.database before (s.checkThread cfg other) := by
  have hr : Roster (s.checkThread cfg other) := h.roster.checkThread other
  by_cases hdb : other = thread.database
  · right
    subst hdb
    have hnew : (⟨s.nextThread, thread.database⟩ : WorkerThread) ∉ s.started := fun hst ↦
      Nat.lt_irrefl _ (h.roster.fresh _ hst)
    have heq : s.checkThread cfg thread.database = s.restart thread.database := by
      simp [QueueJobRunner.checkThread, QueueJobRunner.countDeath, h.running, h.workerThread,
        h.dead, h.free, h.counted]
    rw [heq] at hr ⊢
    obtain ⟨now, delays, _, hrestart⟩ := restart_eq h.workerThread
    rw [hrestart] at hr ⊢
    refine ⟨hr, h.free, ⟨s.nextThread, thread.database⟩,
      List.mem_append_right _ List.mem_cons_self, rfl, fun hm ↦ hnew (hbefore hm), ?_⟩
    exact h.roster.unborn _ hnew
  · exact .inl ⟨h.untouched (untouched_checkThread hdb) hr checkThread_frame.2, hdb⟩

/-- The rounds behind the restart leave the new thread alone. -/
theorem Replaced.checkThread {db : String} (h : Replaced db before s) (other : String) :
    Replaced db before (s.checkThread cfg other) := by
  obtain ⟨t, ht, htdb, hnew, hserving⟩ := h.serving
  have hr : Roster (s.checkThread cfg other) := h.roster.checkThread other
  by_cases hdb : other = db
  · have hsame : s.checkThread cfg other = s := by
      have hentry := workerThread_of_mem h.roster ht
      rw [htdb, ← hdb] at hentry
      simp [QueueJobRunner.checkThread, hentry, hserving]
    rwa [hsame]
  · have hu : Untouched db s (s.checkThread cfg other) := untouched_checkThread hdb
    refine ⟨hr, fun hq ↦ h.free (hu.quarantined.mp hq), t, (hu.registered t htdb).mpr ht, htdb,
      hnew, ?_⟩
    rw [checkThread_frame.1, hserving]

/-- The health check replaces the thread of a released database. -/
theorem Released.checkThreadHealth (h : Released cfg thread s) :
    Replaced thread.database s.started (s.checkThreadHealth cfg) := by
  have hfold (names : List String) : ∀ u : QueueJobRunner, s.started ⊆ u.started →
      Released cfg thread u ∧ thread.database ∈ names ∨
        Replaced thread.database s.started u →
      Replaced thread.database s.started (names.foldl (QueueJobRunner.checkThread cfg) u) := by
    induction names with
    | nil => exact fun u _ hu ↦ hu.resolve_left fun hm ↦ List.not_mem_nil hm.2
    | cons other names ih =>
      intro u hsub hu
      refine ih _ (List.Subset.trans hsub (extends_checkThread other).started) ?_
      rcases hu with ⟨hu, hm⟩ | hu
      · exact (hu.checkThread hsub).imp_left fun hc ↦
          ⟨hc.1, (List.mem_cons.mp hm).resolve_left (Ne.symm hc.2)⟩
      · exact .inr (hu.checkThread other)
  refine hfold _ s (List.Subset.refl _) (.inl ⟨h, ?_⟩)
  exact List.mem_map.mpr ⟨thread, h.registered, rfl⟩

end Expired

/-- Once all failures of a database have aged out of the window, a discovery pass that
confirms its module and a health check take it out of the quarantine and start a new thread
for it. -/
theorem quarantine_expires {cfg : RunnerConfig} {db : String}
    {past : List (QueueJobRunner × RunnerAction)} {s s₁ s₂ : QueueJobRunner}
    {thread : WorkerThread} {d : Discovery} {delays delays' : List Nat}
    (hpos : 1 ≤ cfg.maximumConsecutiveFailures) (h : RunnerRun cfg past s)
    (hthread : s.workerThread db = some thread) (hdead : s.phase thread = .dead)
    (hcounted : thread ∈ s.deathsCounted)
    (hold : ∀ ts ∈ s.failureTimestamps db, ts < s.now - cfg.failureWindowSeconds * second)
    (hconfirms : d.confirms db = true)
    (hpass : s.next cfg (.discoverDatabases d delays) = some s₁)
    (hcheck : s₁.next cfg (.checkThreadHealth delays') = some s₂) :
    db ∉ s₂.quarantinedDatabases ∧ ∃ t, s₂.workerThread db = some t ∧ t ∉ s.started ∧
      t ∈ s₂.started ∧ s₂.phase t = .serving := by
  obtain ⟨hw, rfl⟩ := workerThread_eq_some hthread
  obtain ⟨hrun, hpass⟩ := Option.ite_none_left_eq_some.mp hpass
  obtain ⟨_, hcheck⟩ := Option.ite_none_left_eq_some.mp hcheck
  cases hpass
  cases hcheck
  have hexpired : Expired cfg thread { s with delays } :=
    ⟨(roster h).quiet _ _ _ _, hw, hdead, hcounted, by simpa using hrun ∘ .inl, hold⟩
  have hreleased := Released.discoverDatabases hexpired hpos hconfirms
  have hpass : Extends { s with delays } (discoverDatabases cfg { s with delays } d) :=
    extends_discoverDatabases d
  set u := discoverDatabases cfg { s with delays } d
  have hlater : Released cfg thread { u with delays := delays' } :=
    ⟨⟨hreleased.roster.quiet _ _ _ _, hreleased.registered, hreleased.dead, hreleased.counted,
      hreleased.running, hreleased.old⟩, hreleased.free⟩
  obtain ⟨hr, hfree, t, ht, hdb, hnew, hserving⟩ := hlater.checkThreadHealth
  refine ⟨hfree, t, ?_, fun hst ↦ hnew ?_, hr.registered t ht, hserving⟩
  · rw [← hdb]
    exact workerThread_of_mem hr ht
  · exact hpass.started hst

/-- The database that died twice is served again five minutes later. -/
theorem quarantine_expires_diesTwice : ∃ past s s₁ s₂,
    RunnerRun { maximumConsecutiveFailures := 2 } past s ∧
      s.next { maximumConsecutiveFailures := 2 } (.discoverDatabases findsProd []) = some s₁ ∧
      s₁.next { maximumConsecutiveFailures := 2 } (.checkThreadHealth []) = some s₂ ∧
      "prod" ∈ s.quarantinedDatabases ∧ "prod" ∉ s₂.quarantinedDatabases := by
  have hrun : (replay (next { maximumConsecutiveFailures := 2 }) { now := 0 }
      (diesTwice ++ [.tick 301000000])).bind (fun r ↦
        (r.2.next { maximumConsecutiveFailures := 2 } (.discoverDatabases findsProd [])).bind
          fun s₁ ↦ (s₁.next { maximumConsecutiveFailures := 2 } (.checkThreadHealth [])).map
            fun _ ↦ (r.2.workerThread "prod", r.2.phase ⟨1, "prod"⟩, r.2.deathsCounted,
              decide (∀ ts ∈ r.2.failureTimestamps "prod", ts < r.2.now - 300 * second),
              r.2.quarantinedDatabases)) =
      some (some ⟨1, "prod"⟩, .dead, [⟨1, "prod"⟩], true, ["prod"]) := by decide +kernel
  obtain ⟨⟨past, s⟩, hs, hrun⟩ := Option.bind_eq_some_iff.mp hrun
  obtain ⟨s₁, hpass, hrun⟩ := Option.bind_eq_some_iff.mp hrun
  obtain ⟨s₂, hcheck, heq⟩ := Option.map_eq_some_iff.mp hrun
  simp only [Prod.mk.injEq, decide_eq_true_eq] at heq
  obtain ⟨hthread, hdead, hcounted, hold, hq⟩ := heq
  have hrun : RunnerRun { maximumConsecutiveFailures := 2 } past s :=
    Run.of_replay id ⟨0, rfl⟩ hs
  refine ⟨past, s, s₁, s₂, hrun, hpass, hcheck, by simp [hq], ?_⟩
  exact (quarantine_expires (by decide) hrun hthread hdead (by simp [hcounted]) hold
    (by decide) hpass hcheck).1

end QueueJobRunner
end JobWorker
