import JobWorker.Base.Runs
import JobWorker.Cli.FleetHealth
import Mathlib.Data.Rat.Defs

/-!
# The upgrade gate and its probe

`UpgradeGate` with the cached state, the pause clock and the log entries of its checks,
`job_worker/cli/upgrade_gate.py:46–81,119–143,167–350`. A difference from a missing timestamp
is a `TypeError`, here `none`.
-/

namespace JobWorker

/-- Why the gate is closed; `cli/upgrade_gate.py:46–49`. -/
inductive GateReason
  | modulesInTransition
  | partialUpdate
  | versionSkew
  | probeBlocked
  deriving DecidableEq, Repr

/-- `GateState`; `cli/upgrade_gate.py:57`. -/
structure GateState where
  isOpen : Bool
  reason : Option GateReason
  details : List String := []
  missing : List String := []
  deriving DecidableEq, Repr

/-- `OPEN`; `cli/upgrade_gate.py:58`. -/
def GateState.opened : GateState := ⟨true, none, [], []⟩

/-- The row of `_PROBE_QUERY`, with NULL for an empty aggregate; `cli/upgrade_gate.py:60–81`. -/
structure ProbeRow where
  transient : Option (List String)
  partialUpdate : Bool
  skew : Option (List String)
  missing : Option (List String)
  deriving DecidableEq, Repr

/-- What `_probe_once` meets: the row, a `psycopg2.Error`, or another exception, which may come
from opening or closing the connection as well. -/
inductive ProbeOutcome
  | row (r : ProbeRow)
  | databaseError (pgcode : Option String)
  | raised
  deriving DecidableEq, Repr

/-- `_BLOCKED_PGCODES`; `cli/upgrade_gate.py:52`. -/
def blockedPgcodes : List String := ["55P03", "57014"]

/-- `probe`; `cli/upgrade_gate.py:119–143`. -/
def probe (r : ProbeRow) : GateState :=
  let missing := r.missing.getD []
  if r.transient.getD [] ≠ [] then ⟨false, some .modulesInTransition, r.transient.getD [], missing⟩
  else if r.partialUpdate then ⟨false, some .partialUpdate, [], missing⟩
  else if r.skew.getD [] ≠ [] then ⟨false, some .versionSkew, r.skew.getD [], missing⟩
  else ⟨true, none, [], missing⟩

/-- `_probe_once`, with `none` where it raises; `cli/upgrade_gate.py:261–284`. -/
def probeOnce : ProbeOutcome → Option GateState
  | .row r => some (probe r)
  | .databaseError pgcode =>
    if pgcode.getD "" ∈ blockedPgcodes then
      some ⟨false, some .probeBlocked, pgcode.toList, []⟩
    else none
  | .raised => none

/-- Settings of a gate; `cli/upgrade_gate.py:179–195`. -/
structure UpgradeGateConfig where
  enabled : Bool := true
  givenIntervalSeconds : ℚ := 5
  givenUnhealthyAfterSeconds : ℚ := 3600

/-- `max(0.1, float(interval_seconds))`; `cli/upgrade_gate.py:194`. -/
def UpgradeGateConfig.intervalSeconds (cfg : UpgradeGateConfig) : ℚ :=
  max (1 / 10) cfg.givenIntervalSeconds

/-- `max(0.0, float(unhealthy_after_seconds))`; `cli/upgrade_gate.py:195`. -/
def UpgradeGateConfig.unhealthyAfterSeconds (cfg : UpgradeGateConfig) : ℚ :=
  max 0 cfg.givenUnhealthyAfterSeconds

/-- `still_paused_log_interval_seconds`; `cli/upgrade_gate.py:177`. -/
def stillPausedLogIntervalSeconds : ℚ := 300

/-- The seconds from one reading of the clock to a later one. -/
def secondsFrom (since now : Time) : ℚ := ((now - since : Int) : ℚ) / (second : ℚ)

/-- Log entries of the gate, with the values that they show. -/
inductive GateLog
  | missing (names : List String)
  | resumed (paused : ℚ)
  | paused (reason : Option GateReason) (details : List String)
  | overdue (paused : ℚ) (reason : Option GateReason) (details : List String)
  | stillPaused (paused : ℚ) (reason : Option GateReason) (details : List String)
  deriving DecidableEq

/-- `UpgradeGate` at some reading of the clock; `cli/upgrade_gate.py:200–206`. -/
structure CachedGate where
  now : Time
  state : GateState := .opened
  checkedAt : Option Time := none
  closedSince : Option Time := none
  lastReminderAt : Option Time := none
  overdueLogged : Bool := false
  missingWarned : List String := []
  log : List GateLog := []

namespace CachedGate

variable (cfg : UpgradeGateConfig) (g : CachedGate)

/-- `seconds_closed`, read at `t`; `cli/upgrade_gate.py:227–231`. -/
def secondsClosed (t : Time) : ℚ :=
  match g.closedSince with
  | none => 0
  | some since => max 0 (secondsFrom since t)

/-- `is_overdue`, read at `t`; `cli/upgrade_gate.py:233–237`. -/
def isOverdue (t : Time) : Bool :=
  if cfg.unhealthyAfterSeconds = 0 ∨ g.closedSince = none then false
  else decide (cfg.unhealthyAfterSeconds ≤ g.secondsClosed t)

/-- `_warn_missing`; `cli/upgrade_gate.py:339–350`. -/
def warnMissing (missing : List String) : CachedGate :=
  let new := missing.filter fun name ↦ !g.missingWarned.contains name
  if new = [] then g
  else { g with missingWarned := g.missingWarned ++ new, log := .missing new :: g.log }

/-- The open branch of `_record`; `cli/upgrade_gate.py:290–301`. -/
def recordOpen (previous : GateState) (now : Time) : Option CachedGate :=
  let reset := { g with closedSince := none, lastReminderAt := none, overdueLogged := false }
  if previous.isOpen then some reset
  else g.closedSince.map fun since ↦ { reset with log := .resumed (secondsFrom since now) :: g.log }

/-- The rest of `_record` for a pause that goes on; `cli/upgrade_gate.py:315–337`. -/
def remind (state : GateState) (now later : Time) : Option CachedGate :=
  g.closedSince.bind fun since ↦
    let paused := secondsFrom since now
    if g.isOverdue cfg later ∧ g.overdueLogged = false then
      some { g with
        overdueLogged := true
        log := .overdue paused state.reason state.details :: g.log }
    else
      g.lastReminderAt.map fun lastReminderAt ↦
        if stillPausedLogIntervalSeconds ≤ secondsFrom lastReminderAt now then
          { g with
            lastReminderAt := some now
            log := .stillPaused paused state.reason state.details :: g.log }
        else g

/-- `_record`, which reads the clock again at `later`; `cli/upgrade_gate.py:286–337`. -/
def record (state : GateState) (now later : Time) : Option CachedGate :=
  let g := g.warnMissing state.missing
  let previous := g.state
  let g := { g with state }
  if state.isOpen then g.recordOpen previous now
  else
    let g :=
      if previous.isOpen then { g with closedSince := some now, lastReminderAt := some now } else g
    if previous.isOpen ∨ previous.reason ≠ state.reason then
      some { g with log := .paused state.reason state.details :: g.log }
    else g.remind cfg state now later

/-- The last probe is recent enough; `cli/upgrade_gate.py:216–221`. -/
def cached (force : Bool) (now : Time) : Bool :=
  !force && g.checkedAt.any fun checkedAt ↦
    decide (secondsFrom checkedAt now < cfg.intervalSeconds)

/-- `check`, with the state that it returns, or `none` where the probe raises;
`cli/upgrade_gate.py:211–225`. -/
def check (force : Bool) (outcome : ProbeOutcome) (now later : Time) :
    Option (CachedGate × Option GateState) :=
  if ¬ cfg.enabled then some (g, some .opened)
  else if g.cached cfg force now then some (g, some g.state)
  else
    match probeOnce outcome with
    | none => some (g, none)
    | some state =>
      ({ g with checkedAt := some now }.record cfg state now later).map fun g ↦ (g, some state)

end CachedGate

/-- A call of `check`: the time since the last one, and the time that the probe takes. -/
structure CheckCall where
  elapsed : Nat
  force : Bool
  outcome : ProbeOutcome
  took : Nat

namespace CachedGate

variable (cfg : UpgradeGateConfig) (g : CachedGate)

/-- A call with the clock behind it. -/
def call (c : CheckCall) : Option (CachedGate × Option GateState) :=
  (g.check cfg c.force c.outcome (g.now + c.elapsed) (g.now + c.elapsed + c.took)).map
    fun r ↦ ({ r.1 with now := g.now + c.elapsed + c.took }, r.2)

/-- One call of `check`, if it ends. -/
def next (c : CheckCall) : Option CachedGate := (g.call cfg c).map Prod.fst

end CachedGate

/-- Runs of a gate. -/
abbrev GateRun (cfg : UpgradeGateConfig) : List (CachedGate × CheckCall) → CachedGate → Prop :=
  Transition.Run (fun g ↦ ∃ now : Time, g = { now }) fun g c g' ↦ g.next cfg c = some g'

end JobWorker
