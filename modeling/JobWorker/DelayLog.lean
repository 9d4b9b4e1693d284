import JobWorker.DelayEffects

/-!
# The job methods that delay runs

Without the queue `delay` runs the job of every delayable that it reaches
(`job_worker/delay.py:163–164`, `models/queue_job.py:863–931`). Here the calls of `delay` keep
a log of these runs, which outlives an exception of a job method.
-/

namespace JobWorker

/-- The method returned. -/
def JobOutcome.succeeded : JobOutcome → Bool
  | .returns _ => true
  | .raises _ _ => false

/-- An execution of the job of a delayable, and whether its method returned. -/
structure MethodCall where
  delayable : Ref
  succeeded : Bool
  deriving DecidableEq, Repr

/-- A call on the session with the executions that it has made when it returns, raises or
runs out of fuel. -/
def Logged (α : Type) : Type :=
  Session → List MethodCall × Option (Except DelayError (α × Session))

namespace Logged

/-- A call that executes no job. -/
def quiet {α : Type} (m : Delaying α) : Logged α := fun st ↦ ([], (m st).run)

/-- One entry. -/
def record (call : MethodCall) : Logged Unit := fun st ↦ ([call], some (.ok ((), st)))

instance : Monad Logged where
  pure a := quiet (pure a)
  bind m f st :=
    match m st with
    | (calls, some (.ok (a, st'))) => (calls ++ (f a st').1, (f a st').2)
    | (calls, some (.error e)) => (calls, some (.error e))
    | (calls, none) => (calls, none)

instance : MonadLift Delaying Logged := ⟨quiet⟩

/-! ### The calls -/

/-- The loop over callbacks; `delay.py:154–162`. -/
def delayCallbacks (delay : Ref → Logged (Option JobId)) (wire : Scheduler → Scheduler) :
    List Ref → Logged Unit
  | [] => return ()
  | callback :: callbacks => do
    Delaying.assign callback wire
    let _ ← delay callback
    delayCallbacks delay wire callbacks

/-- `run_now` in place of the queue; `delay.py:163–164`. -/
def runWithoutDelay (env : DelayEnv) (self : Ref) (job : JobId) : Logged Unit := do
  if env.mustRunWithoutDelay then
    record ⟨self, (env.run job).outcome.succeeded⟩
  Delaying.runWithoutDelay env job

/-- `Delayable.delay`; `delay.py:120–165`. -/
def delayDelayable (env : DelayEnv) (delay : Ref → Logged (Option JobId)) (self : Ref)
    (call : DelayableCall) (properties : DelayableProperties) : Logged JobId := do
  let d ← Delaying.read self
  let graphUuid ← Delaying.jobGraphUuid d
  let job ← Delaying.enqueueDelayable env self call properties graphUuid
  delayCallbacks delay (fun c ↦ { c with graphUuid := graphUuid, parentJobId := some job })
    d.nextDelayables
  delayCallbacks delay (fun c ↦ { c with
    graphUuid := graphUuid
    parentJobId := some job
    runOnFailure := true }) d.onErrorDelayables
  runWithoutDelay env self job
  return job

/-- The loop over the members of a group; `delay.py:245–260`. -/
def delayMembers (delay : Ref → Logged (Option JobId)) (self : Ref) (graphUuid : Nat) :
    List Ref → Logged (List JobId)
  | [] => return []
  | member :: members => do
    let g ← Delaying.read self
    Delaying.assign member (Delaying.wireMember graphUuid g)
    match ← delay member with
    | some job => return job :: (← delayMembers delay self graphUuid members)
    | none => Delaying.throw .attributeError

/-- `DelayableGroup.delay`; `delay.py:240–269`. -/
def delayGroup (delay : Ref → Logged (Option JobId)) (self : Ref) (delayables : List Ref) :
    Logged Unit := do
  let graphUuid ← Delaying.graphUuidOf self
  let memberJobs ← delayMembers delay self graphUuid delayables
  let g ← Delaying.read self
  delayCallbacks delay (Delaying.wireNext graphUuid memberJobs) g.nextDelayables
  delayCallbacks delay (Delaying.wireError graphUuid memberJobs) g.onErrorDelayables

/-- The loop over the steps of a chain; `delay.py:298–319`. -/
def delaySteps (delay : Ref → Logged (Option JobId)) (self : Ref) (graphUuid : Nat)
    (previousJob : Option JobId) (first : Bool) : List Ref → Logged (Option JobId)
  | [] => return previousJob
  | step :: steps => do
    let g ← Delaying.read self
    Delaying.assign step (Delaying.wireStep graphUuid previousJob first g)
    delaySteps delay self graphUuid (← delay step) false steps

/-- `DelayableChain.delay`; `delay.py:296–331`. -/
def delayChain (delay : Ref → Logged (Option JobId)) (self : Ref) (delayables : List Ref) :
    Logged Unit := do
  let graphUuid ← Delaying.graphUuidOf self
  let previousJob ← delaySteps delay self graphUuid none true delayables
  let g ← Delaying.read self
  delayCallbacks delay (fun c ↦ { c with
    graphUuid := some graphUuid
    parentJobId := previousJob <|> c.parentJobId }) g.nextDelayables
  delayCallbacks delay (fun c ↦ { c with
    graphUuid := some graphUuid
    parentJobId := previousJob <|> c.parentJobId
    runOnFailure := true }) g.onErrorDelayables

/-- `delay` of any scheduler. -/
def delay (env : DelayEnv) : Nat → Ref → Logged (Option JobId)
  | 0, _ => (Delaying.outOfFuel : Delaying (Option JobId))
  | fuel + 1, self => do
    match (← Delaying.read self).cls with
    | .delayable _ _ (some job) => return some job
    | .delayable call properties none =>
      some <$> delayDelayable env (delay env fuel) self call properties
    | .group delayables => delayGroup (delay env fuel) self delayables; return none
    | .chain delayables => delayChain (delay env fuel) self delayables; return none

/-! ### Without the log -/

/-- The call without its log. -/
def forget {α : Type} (m : Logged α) : Delaying α := fun st ↦ ExceptT.mk (m st).2

section Forget

variable {α β : Type}

@[simp] theorem forget_quiet (m : Delaying α) : (quiet m).forget = m := rfl

@[simp] theorem forget_liftM (m : Delaying α) : (liftM m : Logged α).forget = m := rfl

@[simp] theorem forget_pure (a : α) : (pure a : Logged α).forget = pure a := rfl

@[simp] theorem forget_record (call : MethodCall) : (record call).forget = pure () := rfl

/-- Without its log a sequence is the sequence of its calls without theirs. -/
@[simp] theorem forget_bind (m : Logged α) (f : α → Logged β) :
    (m >>= f).forget = m.forget >>= fun a ↦ (f a).forget := by
  funext st
  show (bind m f st).2 = ExceptT.bind (ExceptT.mk (m st).2) fun p ↦ (f p.1).forget p.2
  have hbind : bind m f st = match m st with
      | (calls, some (.ok (a, st'))) => (calls ++ (f a st').1, (f a st').2)
      | (calls, some (.error e)) => (calls, some (.error e))
      | (calls, none) => (calls, none) := rfl
  rw [hbind]
  rcases m st with ⟨calls, _ | _ | ⟨a, st'⟩⟩ <;> rfl

@[simp] theorem forget_map (f : α → β) (m : Logged α) : (f <$> m).forget = f <$> m.forget := by
  rw [map_eq_pure_bind f m.forget]
  exact forget_bind m fun a ↦ pure (f a)

/-- Without their logs the callbacks are delayed as before. -/
@[simp] theorem forget_delayCallbacks (delay : Ref → Logged (Option JobId))
    (wire : Scheduler → Scheduler) (callbacks : List Ref) :
    (delayCallbacks delay wire callbacks).forget =
      Delaying.delayCallbacks (fun r ↦ (delay r).forget) wire callbacks := by
  induction callbacks with
  | nil => rfl
  | cons callback callbacks ih => simp [delayCallbacks, Delaying.delayCallbacks, ih]

@[simp] theorem forget_runWithoutDelay (env : DelayEnv) (self : Ref) (job : JobId) :
    (runWithoutDelay env self job).forget = Delaying.runWithoutDelay env job := by
  unfold runWithoutDelay
  split <;> simp

@[simp] theorem forget_delayDelayable (env : DelayEnv) (delay : Ref → Logged (Option JobId))
    (self : Ref) (call : DelayableCall) (properties : DelayableProperties) :
    (delayDelayable env delay self call properties).forget =
      Delaying.delayDelayable env (fun r ↦ (delay r).forget) self call properties := by
  simp [delayDelayable, Delaying.delayDelayable]

@[simp] theorem forget_delayMembers (delay : Ref → Logged (Option JobId)) (self : Ref)
    (graphUuid : Nat) (members : List Ref) :
    (delayMembers delay self graphUuid members).forget =
      Delaying.delayMembers (fun r ↦ (delay r).forget) self graphUuid members := by
  induction members with
  | nil => rfl
  | cons member members ih =>
    simp only [delayMembers, Delaying.delayMembers, forget_bind, forget_liftM]
    congr! with g _ job
    cases job with
    | none => rfl
    | some job => simp [ih]

@[simp] theorem forget_delaySteps (delay : Ref → Logged (Option JobId)) (self : Ref)
    (graphUuid : Nat) (previousJob : Option JobId) (first : Bool) (steps : List Ref) :
    (delaySteps delay self graphUuid previousJob first steps).forget =
      Delaying.delaySteps (fun r ↦ (delay r).forget) self graphUuid previousJob first steps := by
  induction steps generalizing previousJob first with
  | nil => rfl
  | cons step steps ih => simp [delaySteps, Delaying.delaySteps, ih]

/-- Without its log a call of `delay` is `delay`. -/
theorem forget_delay (env : DelayEnv) (fuel : Nat) (r : Ref) :
    (delay env fuel r).forget = Delaying.delay env fuel r := by
  induction fuel generalizing r with
  | zero => rfl
  | succ fuel ih =>
    have hih : (fun r ↦ (delay env fuel r).forget) = Delaying.delay env fuel := funext ih
    simp only [delay, Delaying.delay, forget_bind, forget_liftM]
    congr! with d
    rcases d.cls with ⟨call, properties, _ | job⟩ | delayables | delayables
    · simp [hih]
    · rfl
    · simp [delayGroup, Delaying.delayGroup, hih]
    · simp [delayChain, Delaying.delayChain, hih]

end Forget

/-! ### The first execution -/

section First

variable {α β : Type} {m : Logged α} {f : α → Logged β} {st st' : Session} {call : MethodCall}

/-- The call raises before any job is executed. -/
def Fails (m : Logged α) (st : Session) : Prop := ∃ e, m st = ([], some (.error e))

/-- The call executes a job, and this one first. -/
def Begins (m : Logged α) (st : Session) (call : MethodCall) : Prop :=
  ∃ calls, (m st).1 = call :: calls

/-- A sequence, computed. -/
theorem bind_apply (m : Logged α) (f : α → Logged β) (st : Session) : (m >>= f) st =
    match m st with
    | (calls, some (.ok (a, st'))) => (calls ++ (f a st').1, (f a st').2)
    | (calls, some (.error e)) => (calls, some (.error e))
    | (calls, none) => (calls, none) := rfl

/-- Behind a call that executes no job. -/
theorem bind_quiet {m : Delaying α} {a : α} (h : Delaying.Returns m st a st') :
    ((liftM m : Logged α) >>= f) st = f a st' := by
  have hm : (liftM m : Logged α) st = ([], some (.ok (a, st'))) := congrArg (Prod.mk []) h
  rw [bind_apply, hm]
  rfl

/-- What fails first fails a sequence. -/
theorem Fails.bind (h : Fails m st) : Fails (m >>= f) st := by
  obtain ⟨e, h⟩ := h
  exact ⟨e, by rw [bind_apply, h]⟩

/-- What is executed first begins a sequence. -/
theorem Begins.bind (h : Begins m st call) : Begins (m >>= f) st call := by
  obtain ⟨calls, h⟩ := h
  rw [Begins, bind_apply]
  rcases hm : m st with ⟨calls', _ | _ | ⟨a, st'⟩⟩
  all_goals
    rw [hm] at h
    subst h
  · exact ⟨calls, rfl⟩
  · exact ⟨calls, rfl⟩
  · exact ⟨calls ++ (f a st').1, rfl⟩

/-- An exception before any execution. -/
theorem fails_quiet {m : Delaying α} {e : DelayError} (h : (m st).run = some (.error e)) :
    Fails (liftM m : Logged α) st := ⟨e, congrArg (Prod.mk []) h⟩

/-- The entry of an execution. -/
theorem begins_record (call : MethodCall) (st : Session) : Begins (record call) st call :=
  ⟨[], rfl⟩

end First

/-! ### Calls that come to an end -/

section Ends

variable {α β : Type} {m : Logged α} {f : α → Logged β} {st st' : Session} {P Q : Session → Prop}

/-- The call does not run out of fuel, and when it returns the session meets `P`. -/
def Ends (m : Logged α) (st : Session) (P : Session → Prop) : Prop :=
  ∃ calls out, m st = (calls, some out) ∧ ∀ a st', out = .ok (a, st') → P st'

/-- Two calls, one after the other. -/
theorem Ends.bind (h : Ends m st P) (hf : ∀ a st', P st' → Ends (f a) st' Q) :
    Ends (m >>= f) st Q := by
  obtain ⟨calls, out, hm, hP⟩ := h
  cases out with
  | error e =>
    refine ⟨calls, .error e, by rw [bind_apply, hm], nofun⟩
  | ok out =>
    obtain ⟨a, st₁⟩ := out
    obtain ⟨calls', out, hm', hQ⟩ := hf a st₁ (hP a st₁ rfl)
    exact ⟨calls ++ calls', out, by rw [bind_apply, hm]; simp only [hm'], hQ⟩

/-- A call that executes no job. -/
theorem ends_quiet {m : Delaying α} {out : Except DelayError (α × Session)}
    (h : (m st).run = some out) (hP : ∀ a st', out = .ok (a, st') → P st') :
    Ends (liftM m : Logged α) st P := ⟨[], out, congrArg (Prod.mk []) h, hP⟩

/-- A value. -/
theorem ends_pure {a : α} (h : P st) : Ends (pure a : Logged α) st P :=
  ⟨[], _, rfl, fun _ _ heq ↦ by cases heq; exact h⟩

/-- An entry. -/
theorem ends_record {call : MethodCall} (h : P st) : Ends (record call) st P :=
  ⟨[call], _, rfl, fun _ _ heq ↦ by cases heq; exact h⟩

/-- The same call. -/
theorem Ends.congr {m' : Logged α} (h : Ends m' st' P) (heq : m st = m' st') : Ends m st P := by
  obtain ⟨calls, out, hm, hP⟩ := h
  exact ⟨calls, out, heq.trans hm, hP⟩

end Ends

end Logged
end JobWorker
