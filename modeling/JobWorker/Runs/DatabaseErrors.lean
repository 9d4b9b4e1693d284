import JobWorker.Cli.RegistryLoad

/-!
# Database errors in a row

The main loop and the registry load answer a database error with a wait that doubles
(`job_worker/cli/worker.py:383–409`, `job_worker/cli/runner.py:808–840`). The power of two is
computed before the wait is cut at its cap, so it is the number of errors in a row that
decides whether the handler itself raises.
-/

namespace JobWorker

open Transition QueueWorker

/-- Behind so many errors in a row, the wait for one more can be computed and waited. -/
def Bearable (base cap : ℚ) (errors : Nat) : Prop :=
  errors < 1024 ∧ Backoff.delay base cap errors ≤ timeoutMax

/-- The wait behind so many errors, when there is one. -/
theorem backoffDelay_eq_some {base cap delay : ℚ} {errors : Nat} :
    backoffDelay base cap errors = some delay ↔
      errors < 1024 ∧ delay = Backoff.delay base cap errors := by
  rw [backoffDelay, Option.ite_none_right_eq_some, Backoff.two_pow_lt_doubleBound,
    Option.some.injEq, eq_comm]

/-- Under a cap that can be waited for, the number of errors decides. -/
theorem bearable_iff {base cap : ℚ} {errors : Nat} (hcap : cap ≤ timeoutMax) :
    Bearable base cap errors ↔ errors < 1024 :=
  and_iff_left ((Backoff.delay_le errors).trans hcap)

namespace QueueWorker

variable (cfg : MainLoopConfig) (s : QueueWorker)

/-- One more error in a row can be borne. -/
def Bears : Prop :=
  Bearable cfg.databaseErrorBackoffSeconds cfg.databaseErrorBackoffCapSeconds
    s.databaseErrorStreak

/-- `_back_off_after_database_error` returns normally, behind a delay between 0 and the
cap. -/
def BacksOff : Prop :=
  ∃ delay, s.countDatabaseError.databaseErrorDelay cfg = some delay ∧
    0 ≤ delay ∧ delay ≤ cfg.databaseErrorBackoffCapSeconds ∧
    s.backOffAfterDatabaseError cfg = s.countDatabaseError.advance.goto .backOff

/-- The loop of `run` is left for the stop event, or for an exception that is no database
error. -/
def LeavesOnlyToStop (past : List (QueueWorker × LoopAction)) : Prop :=
  ∀ p ∈ past, ∀ u, p.1.next cfg p.2 = some u → p.1.pc.serving = true → u.pc.serving = false →
    p.1.stop = true ∨ p.2.raises = some .other

variable {cfg s} {s' : QueueWorker} {a : LoopAction}
  {past : List (QueueWorker × LoopAction)}

/-- The delay behind one more error. -/
theorem databaseErrorDelay_countDatabaseError {delay : ℚ} :
    s.countDatabaseError.databaseErrorDelay cfg = some delay ↔
      s.databaseErrorStreak < 1024 ∧ delay = Backoff.delay cfg.databaseErrorBackoffSeconds
        cfg.databaseErrorBackoffCapSeconds s.databaseErrorStreak := backoffDelay_eq_some

/-- The wait begins exactly when it can be borne. -/
theorem backsOff_iff : s.BacksOff cfg ↔ s.Bears cfg := by
  have hbase : 0 ≤ cfg.databaseErrorBackoffSeconds :=
    le_trans (by norm_num) cfg.databaseErrorBackoffSeconds_pos
  have hcap := hbase.trans cfg.databaseErrorBackoffSeconds_le
  constructor
  · rintro ⟨delay, hd, _, _, heq⟩
    obtain ⟨hlt, rfl⟩ := databaseErrorDelay_countDatabaseError.mp hd
    refine ⟨hlt, not_lt.mp fun hn ↦ ?_⟩
    simp only [backOffAfterDatabaseError, hd, if_neg (not_le.mpr hn)] at heq
    exact Pc.noConfusion (congrArg pc heq)
  · rintro ⟨hlt, hle⟩
    have hd : s.countDatabaseError.databaseErrorDelay cfg = some _ :=
      databaseErrorDelay_countDatabaseError.mpr ⟨hlt, rfl⟩
    refine ⟨_, hd, Backoff.delay_nonneg hbase hcap _, Backoff.delay_le _, ?_⟩
    simp only [backOffAfterDatabaseError, hd, if_pos hle]

/-- A step that lets a database error out waits when the wait can be borne, and shuts the
pool down otherwise. -/
theorem serving_of_failsDatabase (h : s.next cfg a = some s') (ha : a.failsDatabase = true) :
    s.pc.serving = true ∧ (s'.pc.serving = true ↔ s.Bears cfg) := by
  have hnone (hraises : a.raises = none) : False := by
    rcases LoopAction.failsDatabase_iff.mp ha with h | h <;> cases hraises.symm.trans h
  cases effect_of_next h with
  | backOff hpc _ hd hle =>
    obtain ⟨hlt, rfl⟩ := databaseErrorDelay_countDatabaseError.mp hd
    exact ⟨hpc, iff_of_true rfl ⟨hlt, hle⟩⟩
  | overslept hpc _ hd hgt =>
    obtain ⟨_, rfl⟩ := databaseErrorDelay_countDatabaseError.mp hd
    exact ⟨hpc, iff_of_false nofun fun hb ↦ absurd hb.2 (not_le.mpr hgt)⟩
  | shutdown hpc hl =>
    refine ⟨hpc, iff_of_false nofun fun hb ↦ ?_⟩
    cases hl with
    | crashed hother =>
      rcases LoopAction.failsDatabase_iff.mp ha with h | h <;> cases hother.symm.trans h
    | overflowed _ hn =>
      have hd : s.countDatabaseError.databaseErrorDelay cfg = some _ :=
        databaseErrorDelay_countDatabaseError.mpr ⟨hb.1, rfl⟩
      cases hn.symm.trans hd
    | stopped heq => rcases heq with rfl | rfl <;> exact (hnone rfl).elim
    | completed => exact (hnone rfl).elim
  | notAcquired _ hr | beaten _ hr => rcases hr with rfl | rfl <;> exact (hnone rfl).elim
  | _ => exact (hnone rfl).elim

/-- Without an exception the loop is left for the stop event. -/
theorem stop_of_leaves (h : s.next cfg a = some s') (hpc : s.pc.serving = true)
    (hl : s'.pc.serving = false) (ha : a.failsDatabase = false) :
    s.stop = true ∨ a.raises = some .other := by
  cases effect_of_next h with
  | backOff _ hf | overslept _ hf => cases ha.symm.trans hf
  | shutdown _ hout =>
    cases hout with
    | crashed hother => exact .inr hother
    | overflowed hf => cases ha.symm.trans hf
    | stopped _ hs | completed hs => exact .inl hs
  | ended hshut => rw [hshut] at hpc; cases hpc
  | tick | stop | finish => rw [show s.pc.serving = false from hl] at hpc; cases hpc
  | _ => cases hl

/-- The loop is left only to stop exactly when every database error that finds the stop
event clear can be borne. -/
theorem leavesOnlyToStop_iff (h : LoopRun cfg past s) : LeavesOnlyToStop cfg past ↔
    ∀ p ∈ past, p.2.failsDatabase = true → p.1.stop = false → p.1.Bears cfg := by
  constructor
  · intro hleaves p hp hf hstop
    obtain ⟨u, _, hnext⟩ := h.after hp
    obtain ⟨hpc, hiff⟩ := serving_of_failsDatabase hnext hf
    rw [← hiff]
    by_contra hn
    rcases hleaves p hp u hnext hpc (Bool.not_eq_true _ ▸ hn) with hs | hother
    · cases hstop.symm.trans hs
    · rcases LoopAction.failsDatabase_iff.mp hf with h | h <;> cases hother.symm.trans h
  · intro hbears p hp u hnext hpc hl
    cases hf : p.2.failsDatabase with
    | false => exact stop_of_leaves hnext hpc hl hf
    | true =>
      refine .inl (by_contra fun hs ↦ ?_)
      have hserving := (serving_of_failsDatabase hnext hf).2.mpr
        (hbears p hp hf (Bool.not_eq_true _ ▸ hs))
      cases hl.symm.trans hserving

end QueueWorker

/-! ### The registry load -/

section Load

variable {cfg : RegistryLoadConfig} {attempt n : Nat} {rounds : List LoadRound}

/-- One more failed load can be borne. -/
def RegistryLoadConfig.Bears (cfg : RegistryLoadConfig) (attempt : Nat) : Prop :=
  Bearable cfg.registryLoadBackoffSeconds cfg.registryLoadBackoffCapSeconds attempt

/-- The wait of the load, when it can be borne. -/
theorem registryLoadDelay_isSome :
    (registryLoadDelay cfg attempt).isSome = true ↔ cfg.Bears attempt := by
  rw [registryLoadDelay, Option.isSome_iff_exists]
  constructor
  · rintro ⟨delay, hd⟩
    obtain ⟨hd, hle⟩ := Option.filter_eq_some_iff.mp hd
    obtain ⟨hlt, rfl⟩ := backoffDelay_eq_some.mp hd
    exact ⟨hlt, of_decide_eq_true hle⟩
  · rintro ⟨hlt, hle⟩
    exact ⟨_, Option.filter_eq_some_iff.mpr
      ⟨backoffDelay_eq_some.mpr ⟨hlt, rfl⟩, decide_eq_true hle⟩⟩

/-- A database error is retried when it can be borne. -/
theorem loadRegistry_databaseError :
    (cfg.Bears attempt → loadRegistry cfg attempt (.databaseError :: rounds) =
      loadRegistry cfg (attempt + 1) rounds) ∧
    (¬ cfg.Bears attempt → loadRegistry cfg attempt (.databaseError :: rounds) = .raised) := by
  rw [← registryLoadDelay_isSome]
  constructor
  · intro h
    rw [loadRegistry, loadRound, if_pos h]
  · intro h
    rw [loadRegistry, loadRound, if_neg h]

/-- Database errors in a row are retried exactly when each of them can be borne. -/
theorem loadRegistry_databaseErrors (cfg : RegistryLoadConfig) (attempt n : Nat) :
    (∀ rest, loadRegistry cfg attempt (List.replicate n .databaseError ++ rest) =
      loadRegistry cfg (attempt + n) rest) ↔ ∀ m < n, cfg.Bears (attempt + m) := by
  induction n generalizing attempt with
  | zero => simp
  | succ n ih =>
    have hsplit : (∀ m < n + 1, cfg.Bears (attempt + m)) ↔
        cfg.Bears attempt ∧ ∀ m < n, cfg.Bears (attempt + 1 + m) := by
      rw [Nat.forall_lt_succ_left]
      simp only [Nat.add_zero, Nat.add_assoc, Nat.add_comm 1]
    rw [hsplit, ← ih (attempt + 1)]
    have hsum : attempt + (n + 1) = attempt + 1 + n := by omega
    simp only [List.replicate_succ, List.cons_append, hsum]
    by_cases hb : cfg.Bears attempt
    · simp only [loadRegistry_databaseError.1 hb, hb, true_and]
    · refine iff_of_false (fun hall ↦ ?_) fun h ↦ hb h.1
      have hraised := (loadRegistry_databaseError.2 hb).symm.trans (hall [])
      rw [loadRegistry] at hraised
      cases hraised

end Load

/-- The errors of the main loop and of the registry load are survived exactly when each of
them can be borne behind those before it. -/
theorem databaseErrorsSurvived_iff (cfg : MainLoopConfig) (rcfg : RegistryLoadConfig) :
    (∀ s : QueueWorker, s.BacksOff cfg ↔ s.Bears cfg) ∧
    (∀ past s, LoopRun cfg past s → (LeavesOnlyToStop cfg past ↔
      ∀ p ∈ past, p.2.failsDatabase = true → p.1.stop = false → p.1.Bears cfg)) ∧
    ∀ n, (∀ rest, loadRegistry rcfg 0 (List.replicate n .databaseError ++ rest) =
      loadRegistry rcfg n rest) ↔ ∀ m < n, rcfg.Bears m := by
  refine ⟨fun s ↦ backsOff_iff, fun past s h ↦ leavesOnlyToStop_iff h, fun n ↦ ?_⟩
  have hload := loadRegistry_databaseErrors rcfg 0 n
  simpa only [Nat.zero_add] using hload

/-- A worker with the default delays. -/
def defaultLoop : MainLoopConfig := { workerUuid := 0 }

/-- The default delays bear 1024 errors in a row. -/
theorem bears_defaultLoop {s : QueueWorker} :
    s.Bears defaultLoop ↔ s.databaseErrorStreak < 1024 :=
  bearable_iff (by norm_num [defaultLoop, timeoutMax])

/-- A database that answers the third attempt to listen. -/
theorem databaseErrorsSurvived_iff_twice : ∃ past s, LoopRun defaultLoop past s ∧
    s.pc = .gateAtTop ∧ LeavesOnlyToStop defaultLoop past := by
  have hreplay : (replay (next defaultLoop) (create 0 false).run
      [.listen (.error .database), .waited, .listen (.error .transient), .waited,
        .listen (.ok ())]).map (fun r ↦ (r.2.pc,
          decide (∀ p ∈ r.1, p.1.databaseErrorStreak < 1024))) = some (.gateAtTop, true) := by
    decide +kernel
  obtain ⟨⟨past, s⟩, hs, hr⟩ := Option.map_eq_some_iff.mp hreplay
  simp only [Prod.mk.injEq, decide_eq_true_eq] at hr
  have hrun : LoopRun defaultLoop past s := Run.of_replay id ⟨0, false, rfl⟩ hs
  refine ⟨past, s, hrun, hr.1, ?_⟩
  exact ((databaseErrorsSurvived_iff defaultLoop {}).2.1 past s hrun).mpr fun p hp _ _ ↦
    bears_defaultLoop.mpr (hr.2 p hp)

/-- A worker waits to listen behind any number of errors that it can bear. -/
theorem exists_streak (n : Nat) (hn : n ≤ 1024) : ∃ past s, LoopRun defaultLoop past s ∧
    s.pc = .listen ∧ s.stop = false ∧ s.databaseErrorStreak = n := by
  induction n with
  | zero => exact ⟨[], _, .start ⟨0, false, rfl⟩, rfl, rfl, rfl⟩
  | succ n ih =>
    obtain ⟨past, s, h, hpc, hstop, hn'⟩ := ih (Nat.le_of_succ_le hn)
    have hbears : s.Bears defaultLoop := bears_defaultLoop.mpr (hn' ▸ hn)
    obtain ⟨_, _, _, _, heq⟩ := backsOff_iff.mpr hbears
    have hfail : LoopRun defaultLoop _ (s.countDatabaseError.advance.goto .backOff) :=
      h.step (a := .listen (.error .database)) (by simp [next, hpc, raised, heq])
    have hwait :
        LoopRun defaultLoop _ ((s.countDatabaseError.advance.goto .backOff).goto .listen) :=
      hfail.step (a := .waited) (by
        simp [next, goto, QueueWorker.run, countDatabaseError, advance, hstop])
    exact ⟨_, _, hwait, rfl, hstop, congrArg (· + 1) hn'⟩

/-- The 1025th error in a row ends the loop, and the registry load. -/
theorem not_databaseErrorsSurvived_longOutage :
    (¬ ∀ s : QueueWorker, s.BacksOff defaultLoop) ∧
    (¬ ∀ past s, LoopRun defaultLoop past s → LeavesOnlyToStop defaultLoop past) ∧
    loadRegistry {} 0 (List.replicate 1025 .databaseError) = .raised := by
  obtain ⟨past, s, h, hpc, hstop, hn⟩ := exists_streak 1024 le_rfl
  have hover : ¬ s.Bears defaultLoop := fun hb ↦ by
    have hlt := bears_defaultLoop.mp hb
    rw [hn] at hlt
    exact Nat.lt_irrefl _ hlt
  refine ⟨fun hall ↦ hover (backsOff_iff.mp (hall s)), fun hall ↦ ?_, ?_⟩
  · have hstep : LoopRun defaultLoop _ (s.raised defaultLoop .database) :=
      h.step (a := .listen (.error .database)) (by simp [next, hpc])
    exact hover ((leavesOnlyToStop_iff hstep).mp (hall _ _ hstep) _ List.mem_cons_self rfl hstop)
  · have hbears (m : Nat) : RegistryLoadConfig.Bears {} m ↔ m < 1024 :=
      bearable_iff (by norm_num [timeoutMax])
    have hretry := loadRegistry_databaseErrors {} 0 1024
    simp only [Nat.zero_add] at hretry
    have hload := hretry.mpr (fun m hm ↦ (hbears m).mpr hm) [.databaseError]
    rw [← List.replicate_one, ← List.replicate_add] at hload
    exact hload.trans (loadRegistry_databaseError.2 fun hb ↦
      Nat.lt_irrefl _ ((hbears 1024).mp hb))

end JobWorker
