import JobWorker.Models.Cascade

/-!
# Public methods of queue jobs

`enqueue`, `run_now` and the buttons that start no cancellation,
`job_worker/models/queue_job.py:690–741,862–1054`. One clock reading stands for `NOW()`
and `fields.Datetime.now()` within a call; `run_now` has one before and one after the job
method. The method itself touches no queue job and `_job_store_values` adds no value.
-/

namespace JobWorker

open Relational

namespace Store

/-- `for job in self: job.write(vals)`. -/
def writeEach (f : Job → Job) (hk : ∀ r, (f r).identityKey = r.identityKey) (s : Store)
    (self : List JobId) : Except OrmError Store :=
  self.foldlM (fun s job ↦ s.write job f hk) s

section WriteEach

variable {f : Job → Job} {hk : ∀ r, (f r).identityKey = r.identityKey} {s s' : Store}
  {self : List JobId} {i : JobId}

/-- The first write and the rest of the loop. -/
theorem writeEach_cons {job : JobId} : s.writeEach f hk (job :: self) = .ok s' ↔
    ∃ s₁, s.write job f hk = .ok s₁ ∧ s₁.writeEach f hk self = .ok s' := by
  rw [writeEach, List.foldlM_cons]
  exact bind_eq_ok

/-- The loop leaves the rows outside the recordset. -/
theorem get?_writeEach (h : s.writeEach f hk self = .ok s') (hi : i ∉ self) :
    s'.get? i = s.get? i := by
  induction self generalizing s with
  | nil => cases h; rfl
  | cons job self ih =>
    rw [List.mem_cons, not_or] at hi
    obtain ⟨s₁, h₁, h₂⟩ := writeEach_cons.mp h
    rw [ih h₂ hi.2, get?_write h₁, if_neg hi.1]

/-- The loop keeps what its writes keep. -/
theorem sameColumn_writeEach {α : Type} {c : Job → α} (h : s.writeEach f hk self = .ok s')
    (hf : ∀ r, c (f r) = c r) : SameColumn c s s' := by
  induction self generalizing s with
  | nil => cases h; exact .refl _
  | cons job self ih =>
    obtain ⟨s₁, h₁, h₂⟩ := writeEach_cons.mp h
    exact (sameColumn_write h₁ hf).trans (ih h₂)

/-- An inactive state can be written on jobs that are all active. -/
theorem writeEach_isOk (hf : ∀ r, (f r).state.isActive = false)
    (hwire : ∀ r, (f r).wiring = r.wiring) (s₀ : Store) (hd : s₀.Deactivates s)
    (hsame : s₀.SameWiring s)
    (h : ∀ j ∈ self, ∃ r, s₀.get? j = some r ∧ r.state.isActive = true) :
    ∃ s', s.writeEach f hk self = .ok s' := by
  induction self generalizing s with
  | nil => exact ⟨s, rfl⟩
  | cons job self ih =>
    obtain ⟨r, hr, ha⟩ := h job List.mem_cons_self
    obtain ⟨s₁, h₁⟩ : ∃ s₁, s.write job f hk = .ok s₁ :=
      write_isOk_iff.mpr (identityKeyDuplicate_of_deactivates hd hsame hr ha)
    obtain ⟨s', h'⟩ := ih (hd.trans (deactivates_write h₁ hf))
      (hsame.trans (sameColumn_write h₁ hwire)) fun j hj ↦ h j (List.mem_cons_of_mem _ hj)
    exact ⟨s', writeEach_cons.mpr ⟨s₁, h₁, h'⟩⟩

/-- The loop leaves its inactive state on every job of the recordset. -/
theorem stateOf_writeEach {st : JobState} (h : s.writeEach f hk self = .ok s')
    (hf : ∀ r, (f r).state = st) (hi : i ∈ self) {r : Job} (hr : s.get? i = some r) :
    s'.stateOf i = some st := by
  induction self generalizing s r with
  | nil => cases hi
  | cons job self ih =>
    obtain ⟨s₁, h₁, h₂⟩ := writeEach_cons.mp h
    by_cases hmem : i ∈ self
    · cases hr₁ : s₁.get? i with
      | none => rw [get?_write h₁] at hr₁; split at hr₁ <;> simp [hr] at hr₁
      | some r₁ => exact ih h₂ hmem hr₁
    · have hij : i = job := (List.mem_cons.mp hi).resolve_right hmem
      rw [stateOf, get?_writeEach h₂ hmem, get?_write h₁, if_pos hij, hr]
      simp [hf]

/-- Outside `earlier`, another active job holds the identity key of `j`. -/
def KeyHeldOutside (s : Store) (earlier : List JobId) (j : JobId) : Prop :=
  ∃ r, s.get? j = some r ∧ r.identityKey.isSome = true ∧
    ∃ i q, s.get? i = some q ∧ i ≠ j ∧ i ∉ earlier ∧ q.identityKey = r.identityKey ∧
      q.state.isActive = true

/-- Whenever another active job holds the identity key of a job in the list, it comes
earlier in the list. -/
def KeysFree (s : Store) (self : List JobId) : Prop :=
  ∀ earlier j later, self = earlier ++ j :: later → ¬ s.KeyHeldOutside earlier j

/-- From `s₀` to `s` the jobs in `earlier` have been deactivated. -/
private structure DeactivatedOn (s₀ s : Store) (earlier : List JobId) : Prop where
  sameWiring : s₀.SameWiring s
  inactive : ∀ i ∈ earlier, ∀ r, s.get? i = some r → r.state.isActive = false
  outside : ∀ i, i ∉ earlier → s.get? i = s₀.get? i

private theorem DeactivatedOn.duplicate_iff {s₀ : Store} {earlier : List JobId} {j : JobId}
    (h : DeactivatedOn s₀ s earlier) :
    s.identityKeyDuplicate j = true ↔ s₀.KeyHeldOutside earlier j := by
  rw [identityKeyDuplicate_iff]
  constructor
  · rintro ⟨r, hr, hkey, i, q, hq, hne, hqk, hqa⟩
    have hout : i ∉ earlier := fun hmem ↦ by
      rw [h.inactive i hmem q hq] at hqa
      cases hqa
    have hj := h.sameWiring j
    rw [hr] at hj
    obtain ⟨r₀, hr₀, hw⟩ := Option.map_eq_some_iff.mp hj.symm
    have hk₀ := Job.identityKey_of_wiring hw
    exact ⟨r₀, hr₀, by rwa [hk₀], i, q, (h.outside i hout).symm.trans hq, hne, hout,
      by rw [hk₀, hqk], hqa⟩
  · rintro ⟨r₀, hr₀, hkey, i, q, hq, hne, hout, hqk, hqa⟩
    obtain ⟨r, hr, hw⟩ := h.sameWiring.row hr₀
    have hk₀ := Job.identityKey_of_wiring hw
    exact ⟨r, hr, by rwa [hk₀], i, q, (h.outside i hout).trans hq, hne, by rw [hk₀, hqk], hqa⟩

/-- An inactive state can be written on a list of jobs exactly when their keys are free. -/
theorem writeEach_isOk_iff (hf : ∀ r, (f r).state.isActive = false)
    (hwire : ∀ r, (f r).wiring = r.wiring) :
    (∃ s', s.writeEach f hk self = .ok s') ↔ s.KeysFree self := by
  suffices hgen : ∀ (s₁ : Store) (done : List JobId), DeactivatedOn s s₁ done →
      ((∃ s', s₁.writeEach f hk self = .ok s') ↔
        ∀ earlier j later, self = earlier ++ j :: later →
          ¬ s.KeyHeldOutside (done ++ earlier) j) by
    simpa [KeysFree] using hgen s [] ⟨.refl s, by simp, fun _ _ ↦ rfl⟩
  induction self with
  | nil => exact fun s₁ done _ ↦ ⟨fun _ earlier j later h ↦ by simp at h, fun _ ↦ ⟨s₁, rfl⟩⟩
  | cons job self ih =>
    intro s₁ done hdone
    have hnext {s₂ : Store} (h : s₁.write job f hk = .ok s₂) :
        DeactivatedOn s s₂ (done ++ [job]) := by
      refine ⟨hdone.sameWiring.trans (sameColumn_write h hwire), fun i hi r hr ↦ ?_,
        fun i hi ↦ ?_⟩
      · rw [get?_write h] at hr
        split at hr
        · obtain ⟨q, _, rfl⟩ := Option.map_eq_some_iff.mp hr
          exact hf q
        · next hij =>
          have hmem : i ∈ done := by simpa [hij] using hi
          exact hdone.inactive i hmem r hr
      · rw [List.mem_append, List.mem_singleton, not_or] at hi
        rw [get?_write h, if_neg hi.2, hdone.outside i hi.1]
    constructor
    · rintro ⟨s', h⟩ earlier j later hsplit
      obtain ⟨s₂, h₂, hrest⟩ := writeEach_cons.mp h
      cases earlier with
      | nil =>
        cases hsplit
        rw [List.append_nil, ← hdone.duplicate_iff, write_isOk_iff.mp ⟨s₂, h₂⟩]
        exact Bool.false_ne_true
      | cons a earlier =>
        cases hsplit
        have := (ih s₂ _ (hnext h₂)).mp ⟨s', hrest⟩ earlier j later rfl
        rwa [List.append_assoc] at this
    · intro hfree
      have hnd : s₁.identityKeyDuplicate job = false := by
        rw [Bool.eq_false_iff, ne_eq, hdone.duplicate_iff]
        simpa using hfree [] job self rfl
      obtain ⟨s₂, h₂⟩ := write_isOk_iff.mpr hnd
      obtain ⟨s', hrest⟩ := (ih s₂ _ (hnext h₂)).mpr fun earlier j later hsplit ↦ by
        rw [List.append_assoc]
        exact hfree (job :: earlier) j later (by rw [hsplit]; rfl)
      exact ⟨s', writeEach_cons.mpr ⟨s₂, h₂, hrest⟩⟩

end WriteEach

end Store

/-- `(completed_at - started_at).total_seconds()` when the job was started. -/
def durationSince (r : Job) (completedAt : Time) : Option Time :=
  match r.startedAt with
  | some startedAt => some (completedAt - startedAt)
  | none => r.duration

/-- Values written by `button_requeue`; `models/queue_job.py:703–717`. -/
def requeueRow (now : Time) (r : Job) : Job :=
  { r with
    state := .pending
    attempts := some 0
    excInfo := none
    result := none
    scheduledAt := none
    workerId := none
    heartbeat := none
    startedAt := none
    completedAt := none
    cancelledAt := none
    duration := none
    writeDate := now }

/-- `button_requeue`: a job whose identity key is held by another active job is skipped;
`models/queue_job.py:690–718`. -/
def buttonRequeue (now : Time) (s : Store) : List JobId → Except OrmError Store
  | [] => .ok s
  | job :: self =>
    if s.identityKeyDuplicate job then buttonRequeue now s self
    else do
      let s ← s.write job (requeueRow now) fun _ ↦ rfl
      buttonRequeue now s self

/-- Values written by `button_set_to_done` and `button_set_to_failed`;
`models/queue_job.py:723–728,734–739`. -/
def completedRow (now : Time) (state : JobState) (r : Job) : Job :=
  { r with
    state := state
    completedAt := some (datetimeNow now)
    duration := durationSince r (datetimeNow now)
    writeDate := now }

/-- `button_set_to_done`; `models/queue_job.py:720–729`. -/
def buttonSetToDone (now : Time) (s : Store) (self : List JobId) : Except OrmError Store := do
  let s ← s.writeEach (completedRow now .done) (fun _ ↦ rfl) self
  return releaseDependents now s self

/-- `button_set_to_failed`; `models/queue_job.py:731–741`. -/
def buttonSetToFailed (now : Time) (s : Store) (self : List JobId) :
    Except OrmError Store := do
  let s ← self.foldlM (fun s job ↦ do
    let s ← s.write job (completedRow now .failed) fun _ ↦ rfl
    return cascadeChildrenOnParentFailure now s job) s
  return failDependents now s self

/-- Row of a job that `run_now` completed; `models/queue_job.py:868,893–901`. -/
def ranRow (run : Execution) (serialized : Option (Option String)) (r : Job) : Job :=
  { r with
    startedAt := some (datetimeNow run.start)
    result := serialized.getD r.result
    state := .done
    completedAt := some (datetimeNow run.finish)
    duration := some (datetimeNow run.finish - datetimeNow run.start)
    writeDate := run.finish }

/-- Row of a job whose method asked `run_now` for a retry;
`models/queue_job.py:868,907–921`. -/
def postponedRow (run : Execution) (seconds : Option Int) (ignoreRetry : Bool)
    (traceback : String) (r : Job) : Job :=
  let attempts := if ignoreRetry then r.attemptsRead else r.attemptsRead + 1
  { r with
    startedAt := some (datetimeNow run.start)
    excInfo := some traceback
    attempts := if ignoreRetry then r.attempts else some attempts
    scheduledAt :=
      some (datetimeNow run.finish + seconds.getD (backoffSeconds attempts 3600) * second)
    state := .pending
    writeDate := run.finish }

/-- Row of a job whose method raised under `run_now`; `models/queue_job.py:868,923–927`. -/
def crashedRow (run : Execution) (traceback : String) (r : Job) : Job :=
  { r with
    startedAt := some (datetimeNow run.start)
    state := .failed
    excInfo := some traceback
    completedAt := some (datetimeNow run.finish)
    duration := some (datetimeNow run.finish - datetimeNow run.start)
    writeDate := run.finish }

/-- Both failure cascades of one job, in the order of every caller;
`models/queue_job.py:928–930`, `cli/worker.py:1312–1313`. -/
def cascadeFailureToDependents (now : Time) (s : Store) (job : JobId) : Store :=
  failDependents now (cascadeChildrenOnParentFailure now s job) [job]

/-- Both success cascades of one job, in the order of every caller;
`models/queue_job.py:902–904`, `cli/worker.py:1127–1128`. -/
def cascadeSuccessToDependents (now : Time) (s : Store) (job : JobId) : Store :=
  releaseDependents now (cascadeChildrenOnParentSuccess now s job) [job]

/-- One round of `run_now`, with `true` when the exception of the method is re-raised
after the writes. A constraint error of a write aborts the call, also out of the
handlers, which write the state again; `models/queue_job.py:866–931`. -/
def runJob (run : Execution) (s : Store) (job : JobId) : Except OrmError (Store × Bool) :=
  match run.outcome with
  | .returns serialized => do
    let s ← s.write job (ranRow run serialized) fun _ ↦ rfl
    return (cascadeSuccessToDependents run.finish s job, false)
  | .raises exc traceback =>
    match exc.retryable? with
    | some (seconds, ignoreRetry) => do
      let s ← s.write job (postponedRow run seconds ignoreRetry traceback) fun _ ↦ rfl
      return (s, false)
    | none => do
      let s ← s.write job (crashedRow run traceback) fun _ ↦ rfl
      return (cascadeFailureToDependents run.finish s job, true)

/-- Everything one round of `run_now` can do: complete the job, postpone it, or fail it and
re-raise the exception. -/
inductive RunEffect (run : Execution) (s : Store) (job : JobId) : Store × Bool → Prop
  | returned {serialized : Option (Option String)} {s₁ : Store} :
      run.outcome = .returns serialized →
      s.write job (ranRow run serialized) (fun _ ↦ rfl) = .ok s₁ →
      RunEffect run s job (cascadeSuccessToDependents run.finish s₁ job, false)
  | postponed {exc : JobException} {traceback : String} {seconds : Option Int}
      {ignoreRetry : Bool} {s₁ : Store} : run.outcome = .raises exc traceback →
      exc.retryable? = some (seconds, ignoreRetry) →
      s.write job (postponedRow run seconds ignoreRetry traceback) (fun _ ↦ rfl) = .ok s₁ →
      RunEffect run s job (s₁, false)
  | crashed {exc : JobException} {traceback : String} {s₁ : Store} :
      run.outcome = .raises exc traceback → exc.retryable? = none →
      s.write job (crashedRow run traceback) (fun _ ↦ rfl) = .ok s₁ →
      RunEffect run s job (cascadeFailureToDependents run.finish s₁ job, true)

/-- One round of `run_now` does one of these. -/
theorem runEffect {run : Execution} {s : Store} {job : JobId} {out : Store × Bool}
    (h : runJob run s job = .ok out) : RunEffect run s job out := by
  unfold runJob at h
  split at h
  · next ho =>
    obtain ⟨s₁, hw, h⟩ := bind_eq_ok.mp h
    cases h
    exact .returned ho hw
  · next ho =>
    split at h
    · next hretry =>
      obtain ⟨s₁, hw, h⟩ := bind_eq_ok.mp h
      cases h
      exact .postponed ho hretry hw
    · next hretry =>
      obtain ⟨s₁, hw, h⟩ := bind_eq_ok.mp h
      cases h
      exact .crashed ho hretry hw

/-- A method that returns raises nothing. -/
theorem not_raised_of_returns {run : Execution} {serialized : Option (Option String)}
    {s s' : Store} {job : JobId} {raised : Bool} (ho : run.outcome = .returns serialized)
    (h : runJob run s job = .ok (s', raised)) : raised = false := by
  cases runEffect h with
  | returned | postponed => rfl
  | crashed ho' => cases ho.symm.trans ho'

/-- `run_now`: the first re-raised exception ends the loop;
`models/queue_job.py:862–931`. -/
def runNow (run : JobId → Execution) (s : Store) :
    List JobId → Except OrmError (Store × Bool)
  | [] => .ok (s, false)
  | job :: self => do
    let (s, raised) ← runJob (run job) s job
    if raised then return (s, true) else runNow run s self

/-! ### Enqueueing -/

/-- A value of `eta` or `scheduled_at`. -/
inductive Eta
  | timedelta (delta : Time)
  | number (seconds : Int)
  | datetime (t : Time)
  deriving DecidableEq, Repr

/-- `fields.Datetime.to_datetime`: a falsy value is no datetime, a number or a timedelta
is a type error. -/
def Eta.toDatetime : Eta → Except OrmError (Option Time)
  | .timedelta delta => if delta = 0 then .ok none else .error .typeError
  | .number seconds => if seconds = 0 then .ok none else .error .typeError
  | .datetime t => .ok (some t)

/-- `_normalize_eta`; `models/queue_job.py:933–941`. -/
def normalizeEta (now : Time) : Option Eta → Option Time
  | none => none
  | some (.timedelta delta) => some (datetimeNow now + delta)
  | some (.number seconds) => some (datetimeNow now + seconds * second)
  | some (.datetime t) => some t

/-- Arguments of `enqueue`; `models/queue_job.py:944–963`. -/
structure EnqueueArgs where
  modelName : String
  methodName : String
  recordIds : List Nat := []
  args : String := "[]"
  kwargs : String := "\x7b\x7d"
  channel : Option String := some "root"
  priority : Option Int := none
  maxRetries : Option Int := none
  scheduledAt : Option Eta := none
  eta : Option Eta := none
  description : Option String := none
  identityKey : Option String := none
  parentId : Option JobId := none
  graphUuid : Option Nat := none
  timeout : Option Int := none
  dependencyJobIds : Option (List JobId) := none
  runOnFailure : Bool := false

/-- The environment of the caller: the registry, the record rules of its user, and the
user and company of the new row. -/
structure OrmEnv where
  hasModel : String → Bool := fun _ ↦ true
  sees : JobId → Job → Bool := fun _ _ ↦ true
  userId : Option Nat := none
  companyId : Option Nat := none

/-- `identity_key or None`. -/
def storedIdentityKey (identityKey : Option String) : Option IdentityKey :=
  match identityKey with
  | some k => if h : k = "" then none else some ⟨k, h⟩
  | none => none

/-- `eta` after its default, with the conflict check; `models/queue_job.py:974–985`. -/
def resolveEta (eta scheduledAt : Option Eta) : Except OrmError (Option Eta) := do
  let eta := eta <|> scheduledAt
  match eta, scheduledAt with
  | some e, some a =>
    if (← e.toDatetime) ≠ (← a.toDatetime) then
      .error (.valueError
        "Provide either eta or scheduled_at, not conflicting values for both.")
    else return eta
  | _, _ => return eta

/-- The visible active job that holds an identity key;
`models/queue_job.py:992–1000,1042–1049`. -/
def findByIdentityKey (env : OrmEnv) (s : Store) (key : IdentityKey) : Option JobId :=
  (s.jobs.selectBy (fun i r ↦ env.sees i r && r.identityKey == some key && r.state.isActive)
    RowOrder).head?

/-- A search finds an active job with the key that the caller sees. -/
theorem activeWith_of_findByIdentityKey {env : OrmEnv} {s : Store} {key : IdentityKey}
    {j : JobId} (h : findByIdentityKey env s key = some j) :
    ∃ r, s.get? j = some r ∧ env.sees j r = true ∧ r.identityKey = some key ∧
      r.state.isActive = true := by
  obtain ⟨r, hr, hp⟩ := Table.mem_selectBy.mp (List.mem_of_mem_head? h)
  rw [Bool.and_eq_true, Bool.and_eq_true, beq_iff_eq] at hp
  exact ⟨r, hr, hp.1.1, hp.1.2, hp.2⟩

/-- A search that finds nothing has no such job before it. -/
theorem findByIdentityKey_eq_none {env : OrmEnv} {s : Store} {key : IdentityKey}
    (h : findByIdentityKey env s key = none) (j : JobId) (r : Job) (hr : s.get? j = some r)
    (hkey : r.identityKey = some key) (hactive : r.state.isActive = true) :
    env.sees j r = false := by
  rw [findByIdentityKey, List.head?_eq_none_iff] at h
  by_contra hs
  rw [Bool.not_eq_false] at hs
  have hmem : j ∈ s.jobs.selectBy (fun i r ↦ env.sees i r && r.identityKey == some key &&
      r.state.isActive) RowOrder :=
    Table.mem_selectBy.mpr ⟨r, hr, by simp [hs, hkey, hactive]⟩
  rw [h] at hmem
  cases hmem

/-- The values of the new row; `models/queue_job.py:1002–1036`. -/
def enqueueVals (env : OrmEnv) (now : Time) (a : EnqueueArgs) (eta : Option Eta) : Job where
  payload := ⟨a.modelName, a.methodName, a.recordIds, a.args, a.kwargs⟩
  state :=
    if a.parentId.any (· ≠ 0) ∨ a.dependencyJobIds.getD [] ≠ [] then .waiting else .pending
  priority := a.priority.getD defaultPriority
  channel := some (if a.channel.getD "" = "" then "root" else a.channel.getD "")
  maxRetries := some (a.maxRetries.getD defaultMaxRetries)
  timeout := a.timeout.getD defaultTimeout
  scheduledAt := normalizeEta now eta
  identityKey := storedIdentityKey a.identityKey
  companyId := env.companyId
  userId := env.userId
  parentId := a.parentId.filter (· ≠ 0)
  graphUuid := a.graphUuid
  name := a.description.filter (· ≠ "")
  dependencyJobIds := a.dependencyJobIds
  pendingDependencyCount := (a.dependencyJobIds.getD []).length
  runOnFailure := a.runOnFailure
  createDate := now
  writeDate := now

/-- A new job waits or is pending. -/
theorem state_enqueueVals (env : OrmEnv) (now : Time) (a : EnqueueArgs) (eta : Option Eta) :
    (enqueueVals env now a eta).state = .waiting ∨
      (enqueueVals env now a eta).state = .pending := by
  simp only [enqueueVals]
  split
  · exact .inl rfl
  · exact .inr rfl

/-- A new job is active. -/
theorem isActive_enqueueVals (env : OrmEnv) (now : Time) (a : EnqueueArgs)
    (eta : Option Eta) : (enqueueVals env now a eta).state.isActive = true := by
  rcases state_enqueueVals env now a eta with h | h <;> rw [h] <;> rfl

/-- `enqueue`: an active job with the same identity key is returned instead of a new one;
`models/queue_job.py:943–1054`. -/
def enqueue (env : OrmEnv) (now : Time) (s : Store) (a : EnqueueArgs) :
    Except OrmError (Store × JobId) := do
  if a.modelName = "" ∨ env.hasModel a.modelName = false then
    .error (.valueError s!"Model '{a.modelName}' does not exist in the registry")
  else if a.methodName.startsWith "__" ∧ a.methodName.endsWith "__" then
    .error (.valueError s!"Dunder method '{a.methodName}' is not allowed in job queue")
  else
    let eta ← resolveEta a.eta a.scheduledAt
    match (storedIdentityKey a.identityKey).bind (findByIdentityKey env s) with
    | some existing => return (s, existing)
    -- Behind a failed insertion the savepoint leaves the table as it was, so the second
    -- search for the key finds what the first one found.
    | none => s.create (enqueueVals env now a eta)

/-- The job that a search for an identity key finds has a row. -/
theorem exists_of_enqueue_found {env : OrmEnv} {s : Store} {key : Option String} {j : JobId}
    (h : (storedIdentityKey key).bind (findByIdentityKey env s) = some j) :
    ∃ r, s.get? j = some r := by
  obtain ⟨k, _, hfind⟩ := Option.bind_eq_some_iff.mp h
  obtain ⟨r, hr, _⟩ := Table.mem_selectBy.mp (List.mem_of_mem_head? hfind)
  exact ⟨r, hr⟩

/-- `enqueue` returns an existing job or creates a row. -/
theorem enqueue_cases {env : OrmEnv} {now : Time} {s s' : Store} {a : EnqueueArgs} {j : JobId}
    (h : enqueue env now s a = .ok (s', j)) :
    (s' = s ∧ (storedIdentityKey a.identityKey).bind (findByIdentityKey env s) = some j) ∨
    ∃ eta, resolveEta a.eta a.scheduledAt = .ok eta ∧
      (storedIdentityKey a.identityKey).bind (findByIdentityKey env s) = none ∧
      s.create (enqueueVals env now a eta) = .ok (s', j) := by
  unfold enqueue at h
  split at h
  · cases h
  split at h
  · cases h
  obtain ⟨eta, heta, h⟩ := bind_eq_ok.mp h
  split at h
  · next existing hfind =>
    cases h
    exact .inl ⟨rfl, hfind⟩
  · next hfind => exact .inr ⟨eta, heta, hfind, h⟩

end JobWorker
