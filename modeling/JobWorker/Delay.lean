import JobWorker.Models.QueueJob

/-!
# Delayables, groups and chains

The scheduler objects of `job_worker/delay.py:11–331` and their `delay` methods. The
objects live in a heap, because they refer to each other freely and `delay` writes wiring
attributes on the objects it reaches; `delay` recurses over them and carries fuel here.
Everything one call enqueues belongs to the caller's transaction.
-/

namespace JobWorker

/-- Identity of a Python object. -/
abbrev Ref := Nat

/-- The recordset and the stored call of a `Delayable`; `delay.py:35,43–45`. -/
structure DelayableCall where
  modelName : String
  recordIds : List Nat := []
  jobMethod : Option String := none
  jobArgs : String := "[]"
  jobKwargs : String := "\x7b\x7d"
  deriving DecidableEq

/-- `identity_key`: a value, or a callable that sees the delayable. -/
inductive IdentityKeySpec
  | value (key : Option String)
  | callable (key : DelayableCall → Option String)

/-- The properties of a `Delayable`; `delay.py:14–22`. -/
structure DelayableProperties where
  priority : Option Int := none
  eta : Option Eta := none
  maxRetries : Option Int := none
  description : Option String := none
  channel : Option String := none
  identityKey : IdentityKeySpec := .value none
  timeout : Option Int := none

/-- The three classes of schedulers with the attributes that only they have. -/
inductive SchedulerClass
  | delayable (call : DelayableCall) (properties : DelayableProperties)
      (generatedJob : Option JobId)
  | group (delayables : List Ref)
  | chain (delayables : List Ref)

/-- A scheduler object; its wiring attributes are common to all classes;
`delay.py:47–52,222–230,281–286`. -/
structure Scheduler where
  cls : SchedulerClass
  nextDelayables : List Ref := []
  onErrorDelayables : List Ref := []
  graphUuid : Option Nat := none
  parentJobId : Option JobId := none
  dependencyJobIds : Option (List JobId) := none
  runOnFailure : Bool := false

/-- Exceptions that `delay` lets through. -/
inductive DelayError
  | orm (e : OrmError)
  | valueError (message : String)
  | attributeError
  | jobError

/-- What a call of `delay` changes: the objects, the job table, and the next
`uuid.uuid4()`. -/
structure Session where
  heap : Ref → Scheduler
  store : Store
  nextUuid : Nat := 0

/-- The environment of the recordset, the clock, the answer of
`must_run_without_delay(env)`, and what the job methods do when run there. -/
structure DelayEnv where
  orm : OrmEnv := {}
  now : Time := 0
  mustRunWithoutDelay : Bool := false
  run : JobId → Execution := fun _ ↦ ⟨0, 0, .returns (some none)⟩

/-- A call on the session, which may raise, or run out of fuel. -/
abbrev Delaying := StateT Session (ExceptT DelayError Option)

namespace Delaying

/-- The recursion ran out of fuel. -/
def outOfFuel {α : Type} : Delaying α := fun _ ↦ ExceptT.mk none

/-- An exception of Python. -/
def throw {α : Type} (e : DelayError) : Delaying α := fun _ ↦ ExceptT.mk (some (.error e))

/-- Attributes of an object. -/
def read (r : Ref) : Delaying Scheduler := fun st ↦ pure (st.heap r, st)

/-- Assignments to attributes of an object. -/
def assign (r : Ref) (f : Scheduler → Scheduler) : Delaying Unit := fun st ↦
  pure ((), { st with heap := Function.update st.heap r (f (st.heap r)) })

/-- `str(uuid.uuid4())`. -/
def uuid4 : Delaying Nat := fun st ↦ pure (st.nextUuid, { st with nextUuid := st.nextUuid + 1 })

/-- An ORM call on the job table. -/
def onStore {α : Type} (f : Store → Except OrmError (Store × α)) : Delaying α := fun st ↦
  match f st.store with
  | .error e => ExceptT.mk (some (.error (.orm e)))
  | .ok (s, a) => pure (a, { st with store := s })

/-- A call that returned. -/
def Returns {α : Type} (m : Delaying α) (st : Session) (a : α) (st' : Session) : Prop :=
  (m st).run = some (.ok (a, st'))

/-- A sequence of two calls, computed. -/
theorem run_bind {α β : Type} (m : Delaying α) (f : α → Delaying β) (st : Session) :
    ((m >>= f) st).run = match (m st).run with
      | none => none
      | some (.error e) => some (.error e)
      | some (.ok (a, st₁)) => (f a st₁).run := by
  show ExceptT.run (ExceptT.bind (m st) fun p ↦ f p.1 p.2) = _
  cases h : (m st).run with
  | none => simp [ExceptT.bind, ExceptT.run, ExceptT.mk, show (m st : Option _) = none from h]
  | some out =>
    have h' : (m st : Option _) = some out := h
    cases out <;> simp [ExceptT.bind, ExceptT.bindCont, ExceptT.run, ExceptT.mk, h']

/-- A sequence of two calls returns when both do. -/
theorem returns_bind {α β : Type} {m : Delaying α} {f : α → Delaying β} {st st' : Session}
    {b : β} : Returns (m >>= f) st b st' ↔
      ∃ a st₁, Returns m st a st₁ ∧ Returns (f a) st₁ b st' := by
  rw [Returns, run_bind]
  unfold Returns
  cases (m st).run with
  | none => simp
  | some out =>
    cases out with
    | error e => simp
    | ok p =>
      obtain ⟨a, st₁⟩ := p
      simp

/-- An ORM call, computed. -/
theorem run_onStore {α : Type} (f : Store → Except OrmError (Store × α)) (st : Session) :
    (onStore f st).run = match f st.store with
      | .error e => some (.error (.orm e))
      | .ok (s, a) => some (.ok (a, { st with store := s })) := by
  unfold onStore
  cases f st.store <;> rfl

/-- An ORM call returns what it computes from the table. -/
theorem returns_onStore {α : Type} {f : Store → Except OrmError (Store × α)}
    {st st' : Session} {a : α} :
    Returns (onStore f) st a st' ↔ ∃ s, f st.store = .ok (s, a) ∧ st' = { st with store := s } := by
  unfold Returns onStore
  cases h : f st.store with
  | error e => simp [ExceptT.run, ExceptT.mk]
  | ok out =>
    obtain ⟨s, x⟩ := out
    simp only [Except.ok.injEq, Prod.mk.injEq]
    constructor
    · rintro h
      cases h
      exact ⟨s, ⟨rfl, rfl⟩, rfl⟩
    · rintro ⟨_, ⟨rfl, rfl⟩, rfl⟩
      rfl

end Delaying

/-- `_normalized_eta`; `delay.py:105–113`. -/
def normalizedEta (now : Time) : Option Eta → Option Eta
  | none => none
  | some (.timedelta delta) => some (.datetime (now + delta))
  | some (.number seconds) => some (.datetime (now + seconds * second))
  | some (.datetime t) => some (.datetime t)

/-- `_resolved_identity_key`; `delay.py:115–118`. -/
def IdentityKeySpec.resolved (call : DelayableCall) : IdentityKeySpec → Option String
  | .value key => key
  | .callable key => key call

/-- The arguments of `enqueue` in `Delayable.delay`; `delay.py:132–153`. -/
def delayableArgs (now : Time) (call : DelayableCall) (method : String)
    (properties : DelayableProperties) (graphUuid : Option Nat) (d : Scheduler) :
    EnqueueArgs where
  modelName := call.modelName
  methodName := method
  recordIds := call.recordIds
  args := call.jobArgs
  kwargs := call.jobKwargs
  priority := some (properties.priority.getD defaultPriority)
  maxRetries := some (properties.maxRetries.getD defaultMaxRetries)
  eta := normalizedEta now properties.eta
  channel := some (if properties.channel.getD "" = "" then "root" else properties.channel.getD "")
  description := properties.description
  identityKey := properties.identityKey.resolved call
  parentId := d.parentJobId
  graphUuid := graphUuid
  timeout := some (properties.timeout.getD defaultTimeout)
  dependencyJobIds := d.dependencyJobIds
  runOnFailure := d.runOnFailure

namespace Delaying

/-- `self._graph_uuid or str(uuid.uuid4())`. -/
def graphUuidOf (self : Ref) : Delaying Nat := do
  match (← read self).graphUuid with
  | some graphUuid => return graphUuid
  | none => uuid4

/-- A loop over callbacks: each one is wired, then delayed. -/
def delayCallbacks (delay : Ref → Delaying (Option JobId)) (wire : Scheduler → Scheduler) :
    List Ref → Delaying Unit
  | [] => return ()
  | callback :: callbacks => do
    assign callback wire
    let _ ← delay callback
    delayCallbacks delay wire callbacks

/-- `enqueue` of a `Delayable` whose job has not been generated; `delay.py:124–153`. -/
def enqueueDelayable (env : DelayEnv) (self : Ref) (call : DelayableCall)
    (properties : DelayableProperties) (graphUuid : Option Nat) : Delaying JobId := do
  match call.jobMethod with
  | none => throw (.valueError "No method set on the Delayable")
  | some method =>
    let args := delayableArgs env.now call method properties graphUuid (← read self)
    let job ← onStore fun s ↦ enqueue env.orm env.now s args
    assign self fun d ↦ { d with cls := .delayable call properties (some job) }
    return job

/-- The graph of a delayable: only one with callbacks opens a new graph;
`delay.py:127–130`. -/
def jobGraphUuid (d : Scheduler) : Delaying (Option Nat) :=
  if d.graphUuid = none ∧ (d.nextDelayables ≠ [] ∨ d.onErrorDelayables ≠ []) then
    some <$> uuid4
  else pure d.graphUuid

/-- `run_now` in place of the queue; `delay.py:163–164`. -/
def runWithoutDelay (env : DelayEnv) (job : JobId) : Delaying Unit :=
  if env.mustRunWithoutDelay then do
    match ← onStore fun s ↦ runNow env.run s [job] with
    | true => throw .jobError
    | false => return ()
  else return ()

/-- `Delayable.delay`; `delay.py:120–165`. -/
def delayDelayable (env : DelayEnv) (delay : Ref → Delaying (Option JobId)) (self : Ref)
    (call : DelayableCall) (properties : DelayableProperties) : Delaying JobId := do
  let d ← read self
  let graphUuid ← jobGraphUuid d
  let job ← enqueueDelayable env self call properties graphUuid
  delayCallbacks delay (fun c ↦ { c with graphUuid := graphUuid, parentJobId := some job })
    d.nextDelayables
  delayCallbacks delay (fun c ↦ { c with
    graphUuid := graphUuid
    parentJobId := some job
    runOnFailure := true }) d.onErrorDelayables
  runWithoutDelay env job
  return job

/-- Wiring that a group hands to a member; `delay.py:246–258`. -/
def wireMember (graphUuid : Nat) (g d : Scheduler) : Scheduler :=
  { d with
    graphUuid := some graphUuid
    parentJobId := d.parentJobId <|> g.parentJobId
    dependencyJobIds := d.dependencyJobIds <|> g.dependencyJobIds
    runOnFailure := g.runOnFailure || d.runOnFailure }

/-- The loop over the members of a group; a member that returns no job has no `id`;
`delay.py:245–260`. -/
def delayMembers (delay : Ref → Delaying (Option JobId)) (self : Ref) (graphUuid : Nat) :
    List Ref → Delaying (List JobId)
  | [] => return []
  | member :: members => do
    let g ← read self
    assign member (wireMember graphUuid g)
    match ← delay member with
    | some job => return job :: (← delayMembers delay self graphUuid members)
    | none => throw .attributeError

/-- Wiring that a group hands to an on_done callback; `delay.py:262–263`. -/
def wireNext (graphUuid : Nat) (memberJobs : List JobId) (c : Scheduler) : Scheduler :=
  { c with graphUuid := some graphUuid, dependencyJobIds := some memberJobs }

/-- Wiring that a group hands to an on_error callback; `delay.py:266–268`. -/
def wireError (graphUuid : Nat) (memberJobs : List JobId) (c : Scheduler) : Scheduler :=
  { wireNext graphUuid memberJobs c with runOnFailure := true }

/-- `DelayableGroup.delay`; `delay.py:240–269`. -/
def delayGroup (delay : Ref → Delaying (Option JobId)) (self : Ref) (delayables : List Ref) :
    Delaying Unit := do
  let graphUuid ← graphUuidOf self
  let memberJobs ← delayMembers delay self graphUuid delayables
  let g ← read self
  delayCallbacks delay (wireNext graphUuid memberJobs) g.nextDelayables
  delayCallbacks delay (wireError graphUuid memberJobs) g.onErrorDelayables

/-- Wiring that a chain hands to a step: the previous job, or for the first step the outer
wiring; `delay.py:300–317`. -/
def wireStep (graphUuid : Nat) (previousJob : Option JobId) (first : Bool)
    (g d : Scheduler) : Scheduler :=
  { d with
    graphUuid := some graphUuid
    parentJobId :=
      match previousJob with
      | some job => some job
      | none => if first then d.parentJobId <|> g.parentJobId else d.parentJobId
    dependencyJobIds := if first then d.dependencyJobIds <|> g.dependencyJobIds
      else d.dependencyJobIds
    runOnFailure := g.runOnFailure || d.runOnFailure }

/-- The loop over the steps of a chain; `delay.py:298–319`. -/
def delaySteps (delay : Ref → Delaying (Option JobId)) (self : Ref) (graphUuid : Nat)
    (previousJob : Option JobId) (first : Bool) : List Ref → Delaying (Option JobId)
  | [] => return previousJob
  | step :: steps => do
    let g ← read self
    assign step (wireStep graphUuid previousJob first g)
    delaySteps delay self graphUuid (← delay step) false steps

/-- `DelayableChain.delay`; `delay.py:296–331`. -/
def delayChain (delay : Ref → Delaying (Option JobId)) (self : Ref) (delayables : List Ref) :
    Delaying Unit := do
  let graphUuid ← graphUuidOf self
  let previousJob ← delaySteps delay self graphUuid none true delayables
  let g ← read self
  delayCallbacks delay (fun c ↦ { c with
    graphUuid := some graphUuid
    parentJobId := previousJob <|> c.parentJobId }) g.nextDelayables
  delayCallbacks delay (fun c ↦ { c with
    graphUuid := some graphUuid
    parentJobId := previousJob <|> c.parentJobId
    runOnFailure := true }) g.onErrorDelayables

/-- `delay` of any scheduler: the generated job of a `Delayable`, nothing for a group or a
chain. -/
def delay (env : DelayEnv) : Nat → Ref → Delaying (Option JobId)
  | 0, _ => outOfFuel
  | fuel + 1, self => do
    match (← read self).cls with
    | .delayable _ _ (some job) => return some job
    | .delayable call properties none =>
      some <$> delayDelayable env (delay env fuel) self call properties
    | .group delayables => delayGroup (delay env fuel) self delayables; return none
    | .chain delayables => delayChain (delay env fuel) self delayables; return none

end Delaying

end JobWorker
