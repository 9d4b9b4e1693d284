import JobWorker.Cli.MainLoop

/-!
# Loading the registry

`_load_registry`, the retry loop that a worker thread goes through before it runs,
`job_worker/cli/runner.py:781–840`.
-/

namespace JobWorker

/-- Settings of the retries after their lower bounds; `cli/runner.py:210–216`. -/
structure RegistryLoadConfig where
  registryLoadBackoffSeconds : ℚ := 1
  registryLoadBackoffCapSeconds : ℚ := 60
  registryLoadBackoffSeconds_pos : 1 / 20 ≤ registryLoadBackoffSeconds := by norm_num
  registryLoadBackoffSeconds_le :
    registryLoadBackoffSeconds ≤ registryLoadBackoffCapSeconds := by norm_num

/-- What one round meets: the stop event at its head or in front of the closed gate, or
what the gate and the load raise or return. -/
inductive LoadRound
  | stopped
  | loaded
  | databaseError
  | raised
  deriving DecidableEq, Repr

/-- The loop goes on behind so many failed attempts, returns, or lets an exception out. -/
inductive LoadState
  | retrying (attempt : Nat)
  | returned (loaded : Bool)
  | raised
  deriving DecidableEq, Repr

/-- The wait behind one more failed attempt, none when `_load_registry` raises instead;
`cli/runner.py:821–836`. -/
def registryLoadDelay (cfg : RegistryLoadConfig) (attempt : Nat) : Option ℚ :=
  (backoffDelay cfg.registryLoadBackoffSeconds cfg.registryLoadBackoffCapSeconds attempt).filter
    fun delay ↦ decide (delay ≤ timeoutMax)

/-- One round of the loop; `cli/runner.py:809–839`. -/
def loadRound (cfg : RegistryLoadConfig) (attempt : Nat) : LoadRound → LoadState
  | .stopped => .returned false
  | .loaded => .returned true
  | .databaseError =>
    if (registryLoadDelay cfg attempt).isSome then .retrying (attempt + 1) else .raised
  | .raised => .raised

/-- `_load_registry` over the rounds that it meets; `cli/runner.py:781–840`. -/
def loadRegistry (cfg : RegistryLoadConfig) : Nat → List LoadRound → LoadState
  | attempt, [] => .retrying attempt
  | attempt, round :: rounds =>
    match loadRound cfg attempt round with
    | .retrying attempt => loadRegistry cfg attempt rounds
    | result => result

end JobWorker
