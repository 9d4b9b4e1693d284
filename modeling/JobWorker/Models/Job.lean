import Mathlib

/-!
# Queue job rows

The columns of `queue_job` that the modelled code reads or writes, from
`job_worker/models/queue_job.py:23–281`, with the constants of `job_worker/job.py:3–12`
and the exceptions of `job_worker/exception.py`. Datetimes are whole microseconds.
-/

namespace JobWorker

/-- Primary key of `queue.job`. -/
abbrev JobId := Nat

/-- `str(uuid.uuid4())` of a worker process, known only up to equality;
`cli/worker.py:169`. -/
abbrev WorkerUuid := Nat

/-- Database time in microseconds. -/
abbrev Time := Int

/-- `INTERVAL '1 second'`. -/
def second : Time := 1000000

/-- `fields.Datetime.now()`: the clock without its microseconds. -/
def datetimeNow (now : Time) : Time := now - now % second

/-- Later readings of the clock are not earlier. -/
theorem datetimeNow_mono {t u : Time} (h : t ≤ u) : datetimeNow t ≤ datetimeNow u := by
  unfold datetimeNow second
  dsimp only [Time] at *
  omega

/-- Selection values of `state`; `models/queue_job.py:29–42`. -/
inductive JobState
  | waiting
  | pending
  | started
  | done
  | failed
  | cancelled
  deriving DecidableEq, Repr

/-- States of the partial unique index and of every identity search;
`models/queue_job.py:287`. -/
def JobState.isActive : JobState → Bool
  | .waiting | .pending | .started => true
  | .done | .failed | .cancelled => false

/-- States from which `button_cancelled` withholds its cascade;
`models/queue_job.py:836`. -/
def JobState.isTerminal (s : JobState) : Bool := !s.isActive

/-- A stored identity key: `enqueue` turns the empty one into no key;
`models/queue_job.py:972`. -/
abbrev IdentityKey := { k : String // k ≠ "" }

/-- `job_worker/job.py:3`. -/
def defaultPriority : Int := 10

/-- `job_worker/job.py:4`. -/
def defaultMaxRetries : Int := 5

/-- `job_worker/job.py:5`. -/
def defaultTimeout : Int := 0

/-- The serialized call of a job; `models/queue_job.py:1002–1009`. -/
structure Payload where
  model : String
  method : String
  ids : List Nat
  args : String := "[]"
  kwargs : String := "\x7b\x7d"
  deriving DecidableEq, Repr

/-- A call without records or arguments. -/
def Payload.ping : Payload := { model := "res.partner", method := "ping", ids := [] }

/-- One row of `queue_job`, with the defaults of the field definitions.
`attempts` and `maxRetries` are nullable columns without a default value in SQL. -/
structure Job where
  payload : Payload
  state : JobState := .pending
  priority : Int := defaultPriority
  scheduledAt : Option Time := none
  channel : Option String := none
  attempts : Option Int := some 0
  maxRetries : Option Int := some defaultMaxRetries
  timeout : Int := defaultTimeout
  excInfo : Option String := none
  heartbeat : Option Time := none
  workerId : Option WorkerUuid := none
  identityKey : Option IdentityKey := none
  startedAt : Option Time := none
  completedAt : Option Time := none
  cancelledAt : Option Time := none
  duration : Option Time := none
  result : Option String := none
  parentId : Option JobId := none
  graphUuid : Option Nat := none
  dependencyJobIds : Option (List JobId) := none
  pendingDependencyCount : Int := 0
  runOnFailure : Bool := false
  name : Option String := none
  userId : Option Nat := none
  companyId : Option Nat := none
  createDate : Time := 0
  writeDate : Time := 0
  deriving DecidableEq

/-- The columns that no cascade, button or worker statement changes. -/
structure Wiring where
  parentId : Option JobId
  dependencyJobIds : Option (List JobId)
  runOnFailure : Bool
  identityKey : Option IdentityKey
  deriving DecidableEq

namespace Job

/-- How a row is wired into its graph. -/
def wiring (r : Job) : Wiring :=
  ⟨r.parentId, r.dependencyJobIds, r.runOnFailure, r.identityKey⟩

/-- The listed dependencies, none for a NULL column. -/
def dependencies (r : Job) : List JobId := r.dependencyJobIds.getD []

/-- `dependency_job_ids IS NOT NULL AND dependency_job_ids @> [j]`. -/
def dependsOn (r : Job) (j : JobId) : Bool := r.dependencies.contains j

/-- `state = 'waiting'`. -/
def isWaiting (r : Job) : Bool := r.state == .waiting

/-- The prerequisites of a row on both axes. -/
def WaitsOn (r : Job) (j : JobId) : Prop := r.parentId = some j ∨ r.dependsOn j = true

instance (r : Job) (j : JobId) : Decidable (r.WaitsOn j) := by
  unfold WaitsOn; infer_instance

/-- The `attempts` column as the ORM reads it. -/
def attemptsRead (r : Job) : Int := r.attempts.getD 0

/-- The `max_retries` column as the ORM reads it. -/
def maxRetriesRead (r : Job) : Int := r.maxRetries.getD 0

/-- Containment tests list membership. -/
theorem dependsOn_iff {r : Job} {j : JobId} : r.dependsOn j = true ↔ j ∈ r.dependencies := by
  simp [dependsOn]

/-- The waiting test reads the state. -/
theorem isWaiting_iff {r : Job} : r.isWaiting = true ↔ r.state = .waiting := by
  simp [isWaiting]

/-- Equal wiring means equal parents. -/
theorem parentId_of_wiring {a b : Job} (h : a.wiring = b.wiring) : a.parentId = b.parentId :=
  congrArg Wiring.parentId h

/-- Equal wiring means the same list of dependencies. -/
theorem dependencies_of_wiring {a b : Job} (h : a.wiring = b.wiring) :
    a.dependencies = b.dependencies :=
  congrArg (fun v : Wiring ↦ v.dependencyJobIds.getD []) h

/-- Equal wiring means the same dependencies. -/
theorem dependsOn_of_wiring {a b : Job} (h : a.wiring = b.wiring) (j : JobId) :
    a.dependsOn j = b.dependsOn j := by
  rw [dependsOn, dependsOn, dependencies_of_wiring h]

/-- Equal wiring means the same prerequisites. -/
theorem waitsOn_of_wiring {a b : Job} (h : a.wiring = b.wiring) {j : JobId} :
    a.WaitsOn j ↔ b.WaitsOn j := by
  rw [WaitsOn, WaitsOn, parentId_of_wiring h, dependsOn_of_wiring h]

/-- Equal wiring means the same disposition. -/
theorem runOnFailure_of_wiring {a b : Job} (h : a.wiring = b.wiring) :
    a.runOnFailure = b.runOnFailure := congrArg Wiring.runOnFailure h

/-- Equal wiring means the same identity key. -/
theorem identityKey_of_wiring {a b : Job} (h : a.wiring = b.wiring) :
    a.identityKey = b.identityKey := congrArg Wiring.identityKey h

end Job

/-- Exceptions of a job method that the retry logic tells apart:
`TransientRegistryError`, other `RetryableJobError`s, and everything else;
`job_worker/exception.py:9–36`. -/
inductive JobException
  | transientRegistryError (seconds : Option Int) (ignoreRetry : Bool)
  | retryableJobError (seconds : Option Int) (ignoreRetry : Bool)
  | exception
  deriving DecidableEq, Repr

/-- `except RetryableJobError as err`: its `seconds` and `ignore_retry`, none for other
exceptions. -/
def JobException.retryable? : JobException → Option (Option Int × Bool)
  | .transientRegistryError seconds ignoreRetry => some (seconds, ignoreRetry)
  | .retryableJobError seconds ignoreRetry => some (seconds, ignoreRetry)
  | .exception => none

/-- What a job method does: it returns a value, whose serialization is absent when
`_serialize_result` raised, or it raises. -/
inductive JobOutcome
  | returns (serialized : Option (Option String))
  | raises (exc : JobException) (traceback : String)
  deriving DecidableEq, Repr

/-- One execution of a job method with its clock readings. -/
structure Execution where
  start : Time
  finish : Time
  outcome : JobOutcome
  deriving DecidableEq, Repr

/-- Errors that abort the transaction of an ORM call. -/
inductive OrmError
  | validationError (message : String)
  | integrityError
  | valueError (message : String)
  | typeError
  deriving DecidableEq, Repr

/-- A sequence of two calls succeeds when both do. -/
theorem bind_eq_ok {ε α β : Type} {x : Except ε α} {f : α → Except ε β} {b : β} :
    x >>= f = .ok b ↔ ∃ a, x = .ok a ∧ f a = .ok b := by
  cases x with
  | error e =>
    constructor
    · rintro ⟨⟩
    · rintro ⟨_, ⟨⟩, _⟩
  | ok a =>
    constructor
    · exact fun h ↦ ⟨a, rfl, h⟩
    · rintro ⟨_, ⟨⟩, h⟩
      exact h

/-- `min(10 * (2 ** max(attempts - 1, 0)), cap)`; `models/queue_job.py:913–916`,
`cli/worker.py:1239–1242,1266–1269`. -/
def backoffSeconds (attempts cap : Int) : Int :=
  min (10 * 2 ^ (max (attempts - 1) 0).toNat) cap

end JobWorker
