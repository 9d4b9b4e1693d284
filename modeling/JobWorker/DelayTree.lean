import JobWorker.Base.CallTree
import JobWorker.Graphs.WithoutDelay

/-!
# The calls that delay makes

`delay` of an object as a tree of the calls of `delay` that it makes itself, with a note for
every call of `enqueue` (`job_worker/delay.py:120–165,240–331`). Run with fuel it is `delay`.
-/

namespace JobWorker

/-- A call of `delay`: the object, and the session that it finds. -/
abbrev DelayCall := Ref × Session

/-- A piece of `delay`; the notes are the delayables for which `enqueue` is called. -/
abbrev DelayTree := CallTree DelayCall (Option JobId × Session) DelayError Ref

namespace Delaying

/-- A call that returns or raises in every session. -/
def Total {α : Type} (m : Delaying α) : Prop := ∀ st, (m st).run.isSome = true

/-- The piece of a call that makes none of `delay`. -/
def Total.piece {α : Type} {m : Delaying α} (hm : m.Total) (st : Session) :
    DelayTree (α × Session) :=
  .done ((m st).run.get (hm st))

section Total

variable {α β : Type} {m : Delaying α} {f : α → Delaying β}

theorem Total.bind (hm : m.Total) (hf : ∀ a, (f a).Total) : (m >>= f).Total := by
  intro st
  rw [run_bind]
  have hst := hm st
  generalize (m st).run = out at hst ⊢
  rcases out with _ | _ | ⟨a, st₁⟩
  · cases hst
  · rfl
  · exact hf a st₁

theorem total_jobGraphUuid (d : Scheduler) : (jobGraphUuid d).Total := by
  intro st
  obtain ⟨u, st', h⟩ := returns_jobGraphUuid d st
  rw [show (jobGraphUuid d st).run = _ from h]
  rfl

theorem total_graphUuidOf (self : Ref) : (graphUuidOf self).Total := by
  refine Total.bind (fun _ ↦ rfl) fun d st ↦ ?_
  cases d.graphUuid <;> rfl

theorem total_enqueueDelayable (env : DelayEnv) (self : Ref) (call : DelayableCall)
    (properties : DelayableProperties) (graphUuid : Option Nat) :
    (enqueueDelayable env self call properties graphUuid).Total := by
  intro st
  rw [run_enqueueDelayable]
  split
  · rfl
  · split <;> rfl

theorem total_runWithoutDelay (env : DelayEnv) (job : JobId) :
    (runWithoutDelay env job).Total := by
  intro st
  obtain ⟨out, hout, _⟩ := run_runWithoutDelay env job st
  rw [hout]
  rfl

end Total

/-! ### The pieces -/

/-- A loop of `self` that wires every object and delays it. A strict one needs the job of every
object; `delay.py:154–162,245–260,298–319`. -/
def visitPiece (self : Ref) (wire : Wire) (strict : Bool) :
    Option JobId → Bool → List Ref → Session → DelayTree (List (Option JobId) × Session)
  | _, _, [], st => pure ([], st)
  | previous, first, r :: roots, st =>
    let wired := wire (st.heap self) previous first (st.heap r)
    .ask (r, { st with heap := Function.update st.heap r wired }) fun (job, st₁) ↦
      if strict = true ∧ job = none then .done (.error .attributeError)
      else do
        let (jobs, st₂) ← visitPiece self wire strict job false roots st₁
        pure (job :: jobs, st₂)

/-- The callbacks of `self`, on_done and on_error; `delay.py:154–162,261–269,320–331`. -/
def callbacksPiece (self : Ref) (wire : Wire) (d : Scheduler) (st : Session) :
    DelayTree (Unit × Session) := do
  let (_, st₁) ← visitPiece self wire false none true d.nextDelayables st
  let (_, st₂) ← visitPiece self wire.onError false none true d.onErrorDelayables st₁
  pure ((), st₂)

/-- `enqueue` of a delayable, which is noted; `delay.py:124–153`. -/
def enqueuePiece (env : DelayEnv) (self : Ref) (call : DelayableCall)
    (properties : DelayableProperties) (graphUuid : Option Nat) (st : Session) :
    DelayTree (JobId × Session) :=
  let piece := (total_enqueueDelayable env self call properties graphUuid).piece st
  if call.jobMethod = none then piece else .note self piece

/-- `Delayable.delay`; `delay.py:120–165`. -/
def delayablePiece (env : DelayEnv) (self : Ref) (call : DelayableCall)
    (properties : DelayableProperties) (st : Session) : DelayTree (Option JobId × Session) := do
  let (graphUuid, st₁) ← (total_jobGraphUuid (st.heap self)).piece st
  let (job, st₂) ← enqueuePiece env self call properties graphUuid st₁
  let (_, st₃) ← callbacksPiece self (wireCallback graphUuid job) (st.heap self) st₂
  let (_, st₄) ← (total_runWithoutDelay env job).piece st₃
  pure (some job, st₄)

/-- `delay` of a group or chain, which differ in the wiring of their members and callbacks;
`delay.py:240–269,296–331`. -/
def compoundPiece (self : Ref) (wire : Nat → Wire) (strict : Bool)
    (after : Nat → List (Option JobId) → Wire) (delayables : List Ref) (st : Session) :
    DelayTree (Option JobId × Session) := do
  let (graphUuid, st₁) ← (total_graphUuidOf self).piece st
  let (jobs, st₂) ← visitPiece self (wire graphUuid) strict none true delayables st₁
  let (_, st₃) ← callbacksPiece self (after graphUuid jobs) (st₂.heap self) st₂
  pure (none, st₃)

/-- `delay` of any scheduler. -/
def delayBody (env : DelayEnv) : DelayCall → DelayTree (Option JobId × Session)
  | (self, st) =>
    match (st.heap self).cls with
    | .delayable _ _ (some job) => pure (some job, st)
    | .delayable call properties none => delayablePiece env self call properties st
    | .group delayables =>
      compoundPiece self (fun graphUuid g _ _ ↦ wireMember graphUuid g) true
        (fun graphUuid jobs _ _ _ ↦ wireNext graphUuid jobs.reduceOption) delayables st
    | .chain delayables =>
      compoundPiece self (fun graphUuid g previous first ↦ wireStep graphUuid previous first g)
        false (fun graphUuid jobs ↦ wireAfterChain graphUuid (jobs.getLast?.getD none))
        delayables st

/-! ### The outcome -/

section Outcome

variable {α β : Type} {delay : Ref → Delaying (Option JobId)}
  {f : DelayCall → List Ref × Option (Except DelayError (Option JobId × Session))}
  {roots : List Ref} {st : Session} {self : Ref} {previous : Option JobId} {first : Bool}
  {wire : Wire}

/-- The outcome of a piece behind which a value is made. -/
theorem outcome_bind_pure (t : DelayTree (α × Session)) (g : α → β) :
    ((t >>= fun p ↦ pure (g p.1, p.2)).eval f).2 =
      (t.eval f).2.map (Except.map fun p ↦ (g p.1, p.2)) := by
  rw [CallTree.eval_bind]
  rcases (t.eval f).2 with _ | _ | ⟨a, st⟩ <;> rfl

@[simp] theorem eval_piece {m : Delaying α} (hm : m.Total) (st : Session) :
    ((hm.piece st).eval f).2 = (m st).run := Option.some_get _

/-- The outcome of a loop with an object to visit. -/
theorem outcome_visit_cons (hf : ∀ r st, (f (r, st)).2 = (delay r st).run) {strict : Bool}
    {r : Ref} :
    ((visitPiece self wire strict previous first (r :: roots) st).eval f).2 =
      match ((assign r (wire (st.heap self) previous first) >>= fun _ ↦ delay r) st).run with
      | none => none
      | some (.error e) => some (.error e)
      | some (.ok (job, st₁)) =>
        if strict = true ∧ job = none then some (.error .attributeError)
        else ((visitPiece self wire strict job false roots st₁).eval f).2.map
          (Except.map fun p ↦ (job :: p.1, p.2)) := by
  have hassign : ((assign r (wire (st.heap self) previous first) >>= fun _ ↦ delay r) st).run =
      (delay r { st with
        heap := Function.update st.heap r (wire (st.heap self) previous first (st.heap r)) }).run :=
    run_bind _ _ _
  rw [hassign, ← hf, visitPiece, CallTree.eval]
  rcases f _ with ⟨notes, _ | _ | ⟨job, st₁⟩⟩
  · rfl
  · rfl
  · dsimp only
    split
    · rfl
    · exact outcome_bind_pure _ _

/-- The loop over callbacks. -/
theorem run_delayCallbacks (hf : ∀ r st, (f (r, st)).2 = (delay r st).run)
    (wire : Scheduler → Scheduler) : (delayCallbacks delay wire roots st).run =
      ((visitPiece self (fun _ _ _ ↦ wire) false previous first roots st).eval f).2.map
        (Except.map fun p ↦ ((), p.2)) := by
  induction roots generalizing st previous first with
  | nil => rfl
  | cons r roots ih =>
    rw [outcome_visit_cons hf, delayCallbacks, ← bind_assoc, run_bind]
    rcases ((assign r wire >>= fun _ ↦ delay r) st).run with _ | _ | ⟨job, st₁⟩
    · rfl
    · rfl
    · simp only [Bool.false_eq_true, false_and, if_false, Option.map_map]
      rw [ih]
      congr 1
      funext out
      cases out <;> rfl

/-- The loop over the members of a group. -/
theorem run_delayMembers (hf : ∀ r st, (f (r, st)).2 = (delay r st).run) (graphUuid : Nat) :
    (delayMembers delay self graphUuid roots st).run =
      ((visitPiece self (fun g _ _ ↦ wireMember graphUuid g) true previous first roots st).eval
        f).2.map (Except.map fun p ↦ (p.1.reduceOption, p.2)) := by
  induction roots generalizing st previous first with
  | nil => rfl
  | cons r roots ih =>
    have hread : (read self st).run = some (.ok (st.heap self, st)) := rfl
    rw [outcome_visit_cons hf, delayMembers, run_bind, hread]
    dsimp only
    rw [← bind_assoc, run_bind]
    rcases ((assign r (wireMember graphUuid (st.heap self)) >>= fun _ ↦ delay r) st).run with
      _ | _ | ⟨_ | job, st₁⟩
    · rfl
    · rfl
    · rfl
    · simp only [reduceCtorEq, and_false, if_false, Option.map_map]
      rw [run_bind, ih]
      rcases ((visitPiece self _ true (some job) false roots st₁).eval f).2 with _ | _ | _ <;> rfl

/-- The loop over the steps of a chain. -/
theorem run_delaySteps (hf : ∀ r st, (f (r, st)).2 = (delay r st).run) (graphUuid : Nat) :
    (delaySteps delay self graphUuid previous first roots st).run =
      ((visitPiece self (fun g previous first ↦ wireStep graphUuid previous first g) false previous
        first roots st).eval f).2.map
          (Except.map fun p ↦ (p.1.getLast?.getD previous, p.2)) := by
  induction roots generalizing st previous first with
  | nil => rfl
  | cons r roots ih =>
    have hread : (read self st).run = some (.ok (st.heap self, st)) := rfl
    rw [outcome_visit_cons hf, delaySteps, run_bind, hread]
    dsimp only
    rw [← bind_assoc, run_bind]
    rcases ((assign r (wireStep graphUuid previous first (st.heap self)) >>=
      fun _ ↦ delay r) st).run with _ | _ | ⟨job, st₁⟩
    · rfl
    · rfl
    · simp only [Bool.false_eq_true, false_and, if_false, Option.map_map]
      rw [ih]
      rcases ((visitPiece self _ false job false roots st₁).eval f).2 with _ | _ | ⟨jobs, st₂⟩
      · rfl
      · rfl
      · cases jobs with
        | nil => rfl
        | cons j jobs =>
          simp only [Option.map_some, Except.map, Function.comp_apply, List.getLast?_cons_cons,
            List.getLast?_eq_some_getLast (List.cons_ne_nil j jobs), Option.getD_some]

/-- The callbacks of an object. -/
theorem run_callbacks (hf : ∀ r st, (f (r, st)).2 = (delay r st).run)
    (wire : Scheduler → Scheduler) (d : Scheduler) :
    ((delayCallbacks delay wire d.nextDelayables >>= fun _ ↦
      delayCallbacks delay (fun c ↦ { wire c with runOnFailure := true }) d.onErrorDelayables)
        st).run = ((callbacksPiece self (fun _ _ _ ↦ wire) d st).eval f).2 := by
  rw [run_bind, run_delayCallbacks hf, callbacksPiece, CallTree.eval_bind]
  rcases ((visitPiece self (fun _ _ _ ↦ wire) false none true d.nextDelayables st).eval f).2 with
    _ | _ | ⟨jobs, st₁⟩
  · rfl
  · rfl
  · dsimp only [Option.map_some, Except.map]
    rw [run_delayCallbacks hf]
    exact (outcome_bind_pure _ fun _ ↦ ()).symm

/-- `Delayable.delay`. -/
theorem run_delayDelayable (hf : ∀ r st, (f (r, st)).2 = (delay r st).run) (env : DelayEnv)
    (call : DelayableCall) (properties : DelayableProperties) :
    ((some <$> delayDelayable env delay self call properties) st).run =
      ((delayablePiece env self call properties st).eval f).2 := by
  have hread : (read self st).run = some (.ok (st.heap self, st)) := rfl
  have henqueue (u : Option Nat) (st : Session) :
      ((enqueuePiece env self call properties u st).eval f).2 =
        (enqueueDelayable env self call properties u st).run := by
    unfold enqueuePiece
    dsimp only
    split <;> exact eval_piece (f := f) _ _
  have hdelay : some <$> delayDelayable env delay self call properties = do
      let d ← read self
      let u ← jobGraphUuid d
      let job ← enqueueDelayable env self call properties u
      (delayCallbacks delay (fun c ↦ { c with graphUuid := u, parentJobId := some job })
        d.nextDelayables >>= fun _ ↦ delayCallbacks delay (fun c ↦ { c with
          graphUuid := u
          parentJobId := some job
          runOnFailure := true }) d.onErrorDelayables)
      runWithoutDelay env job
      return some job := by
    simp only [delayDelayable, map_bind, map_pure, bind_assoc]
  rw [hdelay, run_bind, hread, delayablePiece, CallTree.eval_bind, eval_piece]
  dsimp only
  rw [run_bind]
  rcases (jobGraphUuid (st.heap self) st).run with _ | _ | ⟨u, st₁⟩
  · rfl
  · rfl
  dsimp only
  rw [run_bind, CallTree.eval_bind, henqueue]
  rcases (enqueueDelayable env self call properties u st₁).run with _ | _ | ⟨job, st₂⟩
  · rfl
  · rfl
  dsimp only
  rw [run_bind, CallTree.eval_bind, run_callbacks hf]
  rcases ((callbacksPiece self (wireCallback u job) (st.heap self) st₂).eval f).2 with
    _ | _ | ⟨_, st₃⟩
  · rfl
  · rfl
  dsimp only
  rw [run_bind, CallTree.eval_bind, eval_piece]
  rcases (runWithoutDelay env job st₃).run with _ | _ | ⟨_, st₄⟩ <;> rfl

/-- `delay` of a group or chain, from the loop over its members. -/
theorem run_compound {γ : Type} (hf : ∀ r st, (f (r, st)).2 = (delay r st).run)
    {members : Nat → Delaying γ} {result : List (Option JobId) → γ} {wire : Nat → Wire}
    {strict : Bool} {delayables : List Ref} (after : Nat → γ → Scheduler → Scheduler)
    (hmembers : ∀ u st, (members u st).run =
      ((visitPiece self (wire u) strict none true delayables st).eval f).2.map
        (Except.map fun p ↦ (result p.1, p.2))) :
    ((do
      let u ← graphUuidOf self
      let jobs ← members u
      let g ← read self
      delayCallbacks delay (after u jobs) g.nextDelayables
      delayCallbacks delay (fun c ↦ { after u jobs c with runOnFailure := true })
        g.onErrorDelayables
      return none : Delaying (Option JobId)) st).run =
        ((compoundPiece self wire strict (fun u jobs _ _ _ ↦ after u (result jobs)) delayables
          st).eval f).2 := by
  rw [run_bind, compoundPiece, CallTree.eval_bind, eval_piece]
  rcases (graphUuidOf self st).run with _ | _ | ⟨u, st₁⟩
  · rfl
  · rfl
  dsimp only
  rw [run_bind, CallTree.eval_bind, hmembers]
  rcases ((visitPiece self (wire u) strict none true delayables st₁).eval f).2 with
    _ | _ | ⟨jobs, st₂⟩
  · rfl
  · rfl
  have hread : (read self st₂).run = some (.ok (st₂.heap self, st₂)) := rfl
  dsimp only [Option.map_some, Except.map]
  rw [run_bind, hread]
  dsimp only
  rw [← bind_assoc, run_bind, CallTree.eval_bind, run_callbacks hf]
  rcases ((callbacksPiece self (fun _ _ _ ↦ after u (result jobs)) (st₂.heap self) st₂).eval
    f).2 with _ | _ | ⟨_, st₃⟩ <;> rfl

/-- With fuel the tree is `delay`. -/
theorem outcome_recurse (env : DelayEnv) (fuel : Nat) (self : Ref) (st : Session) :
    (CallTree.recurse (delayBody env) fuel (self, st)).2 =
      (Delaying.delay env fuel self st).run := by
  induction fuel generalizing self st with
  | zero => rfl
  | succ fuel ih =>
    have hread : (read self st).run = some (.ok (st.heap self, st)) := rfl
    rw [CallTree.recurse, Delaying.delay, run_bind, hread, delayBody]
    dsimp only
    rcases (st.heap self).cls with ⟨call, properties, _ | job⟩ | delayables | delayables
    · exact (run_delayDelayable ih env call properties).symm
    · rfl
    · refine Eq.symm (Eq.trans ?_ (run_compound ih wireNext fun u st ↦ run_delayMembers ih u))
      simp only [delayGroup, bind_assoc]
      rfl
    · refine Eq.symm (Eq.trans ?_ (run_compound ih (fun u previousJob c ↦
        { c with graphUuid := some u, parentJobId := previousJob <|> c.parentJobId })
          fun u st ↦ run_delaySteps ih u))
      simp only [delayChain, bind_assoc]

end Outcome

end Delaying

end JobWorker
