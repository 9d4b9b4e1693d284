import JobWorker.Graphs.Submissions
import JobWorker.Split

/-!
# The jobs of a split recordset

Delaying the group or the chain that `split` returns submits the chunks one after another
(`job_worker/delay.py:167–197,240–319`). The chunks hold every id once when the size is positive,
but all of them carry the identity key of the delayable that was split.
-/

namespace JobWorker

open Relational Delaying Slices

/-- The identity key of the delayable of a chunk. -/
def chunkKey (call : DelayableCall) (properties : DelayableProperties) (chunkIds : List Nat) :
    Option IdentityKey :=
  storedIdentityKey (properties.identityKey.resolved (call.ofChunk chunkIds))

/-- `r` is a delayable without callbacks, not yet delayed. -/
structure Session.Leaf (st : Session) (call : DelayableCall) (properties : DelayableProperties)
    (r : Ref) : Prop where
  cls : (st.heap r).cls = .delayable call properties none
  nextDelayables : (st.heap r).nextDelayables = []
  onErrorDelayables : (st.heap r).onErrorDelayables = []

/-- The objects `refs` are the delayables of the chunks, in order. -/
def Session.Leaves (st : Session) (call : DelayableCall) (properties : DelayableProperties) :
    List Ref → List (List Nat) → Prop :=
  List.Forall₂ fun r chunkIds ↦ st.Leaf (call.ofChunk chunkIds) properties r

/-- The exception that `run_now` re-raises. -/
def Execution.Crashes (run : Execution) : Prop :=
  ∃ exc traceback, run.outcome = .raises exc traceback ∧ exc.retryable? = none

section Leaf

variable {env : DelayEnv} {st st₁ st' : Session} {call : DelayableCall}
  {properties : DelayableProperties} {r : Ref} {graphUuid : Option Nat} {job : JobId}
  {o : Option JobId} {fuel : Nat}

theorem returns_enqueueDelayable :
    Returns (enqueueDelayable env r call properties graphUuid) st job st' ↔
      ∃ method s, call.jobMethod = some method ∧
        enqueue env.orm env.now st.store
          (delayableArgs env.now call method properties graphUuid (st.heap r)) = .ok (s, job) ∧
        st' = { st with
          heap := Function.update st.heap r
            { st.heap r with cls := .delayable call properties (some job) }
          store := s } := by
  unfold Returns
  rw [run_enqueueDelayable]
  constructor
  · intro h
    split at h
    · cases h
    · next method hmethod =>
      split at h
      · cases h
      · next s j henq =>
        cases h
        exact ⟨method, s, hmethod, henq, rfl⟩
  · rintro ⟨method, s, hmethod, henq, rfl⟩
    simp only [hmethod, henq]

theorem runNow_singleton {run : JobId → Execution} {s s' : Store} :
    runNow run s [job] = .ok (s', false) ↔ runJob (run job) s job = .ok (s', false) := by
  unfold runNow
  cases runJob (run job) s job with
  | error e => exact iff_of_false nofun nofun
  | ok out =>
    obtain ⟨s₁, _ | _⟩ := out
    · exact Iff.rfl
    · exact Iff.rfl

theorem returns_runWithoutDelay :
    Returns (runWithoutDelay env job) st () st' ↔
      ∃ s, Ran env job st.store s ∧ st' = { st with store := s } := by
  unfold runWithoutDelay Ran
  split
  · constructor
    · intro h
      obtain ⟨raised, st₁, hrun, h⟩ := returns_bind.mp h
      cases raised with
      | true => cases h
      | false =>
        obtain ⟨_, rfl⟩ := returns_pure.mp h
        obtain ⟨s, hs, rfl⟩ := returns_onStore.mp hrun
        exact ⟨s, runNow_singleton.mp hs, rfl⟩
    · rintro ⟨s, hs, rfl⟩
      exact returns_bind.mpr ⟨false, _, returns_onStore.mpr ⟨s, runNow_singleton.mpr hs, rfl⟩,
        returns_pure.mpr ⟨rfl, rfl⟩⟩
  · constructor
    · intro h
      obtain ⟨_, rfl⟩ := returns_pure.mp h
      exact ⟨st.store, rfl, rfl⟩
    · rintro ⟨_, rfl, rfl⟩
      exact returns_pure.mpr ⟨rfl, rfl⟩

/-- Without callbacks there is one call of `enqueue`, and the execution behind it. -/
theorem returns_delay_leaf (h : st.Leaf call properties r) :
    Returns (delay env (fuel + 1) r) st o st' ↔
      ∃ job st₁, Returns (enqueueDelayable env r call properties (st.heap r).graphUuid) st job st₁ ∧
        Returns (runWithoutDelay env job) st₁ () st' ∧ o = some job := by
  have hread : Returns (read r) st (st.heap r) st := rfl
  have hgraph : jobGraphUuid (st.heap r) = pure (st.heap r).graphUuid := by
    rw [jobGraphUuid, h.nextDelayables, h.onErrorDelayables]
    simp
  constructor
  · intro hreturns
    obtain ⟨d, _, hd, hbody⟩ := returns_bind.mp hreturns
    obtain ⟨rfl, rfl⟩ := eq_of_read hd
    rw [h.cls] at hbody
    obtain ⟨job, hparts, rfl⟩ := returns_map.mp hbody
    obtain ⟨u, st₁, st₂, st₃, st₄, hu, henq, hnext, herror, hrun⟩ := delayDelayable_parts hparts
    rw [hgraph] at hu
    rw [h.nextDelayables] at hnext
    rw [h.onErrorDelayables] at herror
    obtain ⟨rfl, rfl⟩ := returns_pure.mp hu
    obtain ⟨_, rfl⟩ := returns_pure.mp hnext
    obtain ⟨_, rfl⟩ := returns_pure.mp herror
    exact ⟨job, _, henq, hrun, rfl⟩
  · rintro ⟨job, st₁, henq, hrun, rfl⟩
    refine returns_bind.mpr ⟨_, _, hread, ?_⟩
    rw [h.cls]
    refine returns_map.mpr ⟨job, returns_bind.mpr ⟨_, _, hread, ?_⟩, rfl⟩
    rw [hgraph, h.nextDelayables, h.onErrorDelayables]
    refine returns_bind.mpr ⟨_, _, returns_pure.mpr ⟨rfl, rfl⟩, ?_⟩
    refine returns_bind.mpr ⟨_, _, henq, returns_bind.mpr ⟨(), _, returns_pure.mpr ⟨rfl, rfl⟩, ?_⟩⟩
    exact returns_bind.mpr ⟨(), _, returns_pure.mpr ⟨rfl, rfl⟩,
      returns_bind.mpr ⟨(), _, hrun, returns_pure.mpr ⟨rfl, rfl⟩⟩⟩

end Leaf

/-! ### The loops of a group and of a chain -/

section Visits

variable {env : DelayEnv} {st st₁ st₂ st' : Session} {call : DelayableCall}
  {properties : DelayableProperties} {self r : Ref} {refs : List Ref} {chunkIds : List Nat}
  {chunks : List (List Nat)} {job previous : Option JobId} {fuel : Nat} {wire : Wire}

theorem recordIds_ofChunk (call : DelayableCall) (chunkIds : List Nat) :
    (call.ofChunk chunkIds).recordIds = chunkIds := by
  unfold DelayableCall.ofChunk
  split
  · rfl
  · rfl

theorem Session.Leaf.congr (h : st.Leaf call properties r)
    (hlinks : (st.heap r).SameLinks (st'.heap r)) : st'.Leaf call properties r :=
  ⟨hlinks.cls.trans h.cls, hlinks.nextDelayables.trans h.nextDelayables,
    hlinks.onErrorDelayables.trans h.onErrorDelayables⟩

theorem Session.Leaves.congr (h : st.Leaves call properties refs chunks)
    (hheap : ∀ a ∈ refs, st'.heap a = st.heap a) : st'.Leaves call properties refs chunks := by
  unfold Leaves at h ⊢
  induction h with
  | nil => exact .nil
  | cons hleaf _ ih =>
    obtain ⟨hr, hrest⟩ := List.forall_mem_cons.mp hheap
    refine .cons (hleaf.congr ?_) (ih hrest)
    rw [hr]
    exact ⟨rfl, rfl, rfl⟩

/-- The delayable of a chunk is wired and delayed. -/
theorem submitted_of_delay {f : Scheduler → Scheduler} (hf : ∀ d : Scheduler, d.SameLinks (f d))
    (hleaf : st.Leaf (call.ofChunk chunkIds) properties r)
    (hwire : Returns (assign r f) st () st₁) (hdelay : Returns (delay env fuel r) st₁ job st₂) :
    (∀ a, a ≠ r → st₂.heap a = st.heap a) ∧ ∃ j, job = some j ∧
      Submitted env (chunkKey call properties chunkIds) chunkIds st.store st₂.store j := by
  cases fuel with
  | zero => cases hdelay
  | succ fuel =>
    cases hwire
    have hleaf₁ : Session.Leaf { st with heap := Function.update st.heap r (f (st.heap r)) }
        (call.ofChunk chunkIds) properties r := hleaf.congr (by simpa using hf (st.heap r))
    obtain ⟨j, st₃, hreturns, hrun, rfl⟩ := (returns_delay_leaf hleaf₁).mp hdelay
    obtain ⟨method, s, _, henq, rfl⟩ := returns_enqueueDelayable.mp hreturns
    obtain ⟨s', hran, rfl⟩ := returns_runWithoutDelay.mp hrun
    refine ⟨fun a ha ↦ ?_, j, rfl, ?_⟩
    · simp [Function.update_of_ne ha]
    · have hsubmitted := submitted_of_enqueue henq hran
      simp only [delayableArgs, recordIds_ofChunk] at hsubmitted
      exact hsubmitted

theorem submissions_of_visits {jobs : List (Option JobId)} {first : Bool}
    (hlinks : KeepsLinks wire)
    (h : Visits (delay env fuel) self wire previous first refs st jobs st') (hnodup : refs.Nodup)
    (hleaves : st.Leaves call properties refs chunks) :
    (∀ a, a ∉ refs → st'.heap a = st.heap a) ∧
      Submissions env (chunkKey call properties) st.store chunks st'.store := by
  induction h generalizing chunks with
  | nil =>
    cases hleaves
    exact ⟨fun _ _ ↦ rfl, .nil⟩
  | @cons previous job first r refs st st₁ st₂ st' jobs ha hd _ ih =>
    cases hleaves with
    | @cons _ c _ chunks hleaf hleaves =>
      obtain ⟨hr, hnodup⟩ := List.nodup_cons.mp hnodup
      obtain ⟨hheap, j, _, hsubmitted⟩ := submitted_of_delay (hlinks _ _ _) hleaf ha hd
      obtain ⟨hheap', hrest⟩ := ih hnodup
        (Session.Leaves.congr hleaves fun a ha ↦ hheap a (ne_of_mem_of_not_mem ha hr))
      refine ⟨fun a ha ↦ ?_, .cons hsubmitted hrest⟩
      obtain ⟨hne, ha⟩ := List.ne_and_not_mem_of_not_mem_cons ha
      exact (hheap' a ha).trans (hheap a hne)

end Visits

/-! ### Delaying succeeds -/

/-- `enqueue` has nothing against the method and the model of a call, and no method raises when
it is executed at once. -/
structure DelayEnv.Takes (env : DelayEnv) (call : DelayableCall) : Prop where
  named : call.modelName ≠ ""
  registered : env.orm.hasModel call.modelName = true
  method : ∃ method, call.jobMethod = some method ∧ method ≠ "" ∧
    ¬ (method.startsWith "__" = true ∧ method.endsWith "__" = true)
  runs : env.mustRunWithoutDelay = true → ∀ job, ¬ (env.run job).Crashes

/-- A loop wires an object without a parent to the previous job or to none. -/
def FromPrevious (wire : Wire) (g : Scheduler) : Prop :=
  ∀ previous first (d : Scheduler), d.parentJobId = none →
    (wire g previous first d).parentJobId = none ∨ (wire g previous first d).parentJobId = previous

section Exists

variable {env : DelayEnv} {st st' : Session} {s : Store} {call : DelayableCall}
  {properties : DelayableProperties} {self r : Ref} {refs : List Ref} {chunkIds : List Nat}
  {chunks : List (List Nat)} {job : JobId} {previous : Option JobId} {fuel : Nat} {wire : Wire}

theorem ofChunk_of_takes (htakes : env.Takes call) (chunkIds : List Nat) :
    call.ofChunk chunkIds = { call with recordIds := chunkIds } := by
  obtain ⟨method, hmethod, hne, _⟩ := htakes.method
  rw [DelayableCall.ofChunk, hmethod, Option.getD_some, if_neg hne]

theorem exists_ran (htakes : env.Takes call) {row : Job} (hrow : s.get? job = some row)
    (hactive : row.state.isActive = true) : ∃ s', Ran env job s s' := by
  unfold Ran
  split
  · next hmust =>
    have hwrite (f : Job → Job) (hk : ∀ r, (f r).identityKey = r.identityKey) :
        ∃ s', s.write job f hk = .ok s' :=
      Store.write_isOk_iff.mpr (Store.identityKeyDuplicate_of_active hrow hactive)
    unfold runJob
    cases hout : (env.run job).outcome with
    | returns serialized =>
      obtain ⟨s', hs'⟩ := hwrite (ranRow (env.run job) serialized) fun _ ↦ rfl
      exact ⟨_, bind_eq_ok.mpr ⟨s', hs', rfl⟩⟩
    | raises exc traceback =>
      cases hretry : exc.retryable? with
      | none => exact absurd ⟨exc, traceback, hout, hretry⟩ (htakes.runs hmust job)
      | some out =>
        obtain ⟨seconds, ignoreRetry⟩ := out
        obtain ⟨s', hs'⟩ := hwrite
          (postponedRow (env.run job) seconds ignoreRetry traceback) fun _ ↦ rfl
        simp only [hretry]
        exact ⟨s', bind_eq_ok.mpr ⟨s', hs', rfl⟩⟩
  · exact ⟨s, rfl⟩

theorem active_of_enqueue {a : EnqueueArgs} {s' : Store}
    (h : enqueue env.orm env.now s a = .ok (s', job)) :
    ∃ row, s'.get? job = some row ∧ row.state.isActive = true := by
  rcases enqueue_cases h with ⟨rfl, hfound⟩ | ⟨eta, _, _, hcreate⟩
  · obtain ⟨k, _, hfind⟩ := Option.bind_eq_some_iff.mp hfound
    obtain ⟨row, hrow, _, _, hactive⟩ := activeWith_of_findByIdentityKey hfind
    exact ⟨row, hrow, hactive⟩
  · exact ⟨_, Store.get?_create_self hcreate, isActive_enqueueVals _ _ _ _⟩

/-- The delayable of a chunk can be delayed when no active job holds its key. -/
theorem exists_delay_leaf (fuel : Nat) (htakes : env.Takes call)
    (hleaf : st.Leaf (call.ofChunk chunkIds) properties r) (hparent : st.ParentKnown r)
    (hfree : ¬ st.store.KeyHeld (chunkKey call properties chunkIds)) :
    ∃ job st', Returns (delay env (fuel + 1) r) st (some job) st' := by
  obtain ⟨method, hmethod, hne, hdunder⟩ := htakes.method
  have hcall := ofChunk_of_takes htakes chunkIds
  have haccepts : st.store.AcceptsDelayable env.orm (st.heap r) := by
    refine ⟨call.ofChunk chunkIds, properties, none, method, hleaf.cls, ?_, ?_, ?_, hdunder, ?_⟩
    · rw [hcall, ← hmethod]
    · rw [hcall]
      exact htakes.named
    · rw [hcall]
      exact htakes.registered
    · intro k hk i row hrow hkey hactive
      rw [Scheduler.identityKey, hleaf.cls] at hk
      exact absurd ⟨k, i, hk, row, hrow, hkey, hactive⟩ hfree
  obtain ⟨job, st₁, henq⟩ := (enqueueDelayable_accepts env (st.heap r).graphUuid hleaf.cls
    hparent).1 haccepts
  obtain ⟨_, s, _, hs, rfl⟩ := returns_enqueueDelayable.mp henq
  obtain ⟨row, hrow, hactive⟩ := active_of_enqueue hs
  obtain ⟨s', hran⟩ := exists_ran htakes hrow hactive
  exact ⟨job, _, (returns_delay_leaf hleaf).mpr
    ⟨job, _, henq, returns_runWithoutDelay.mpr ⟨s', hran, rfl⟩, rfl⟩⟩

/-- A loop gets to its end where the chunks are apart. -/
theorem exists_visits (fuel : Nat) (htakes : env.Takes call) (hwire : KeepsLinks wire)
    (hprevious : FromPrevious wire (st.heap self)) (hself : self ∉ refs) (hnodup : refs.Nodup)
    (hleaves : st.Leaves call properties refs chunks)
    (hunwired : ∀ a ∈ refs, (st.heap a).parentJobId = none)
    (hfree : ∀ c ∈ chunks, ¬ st.store.KeyHeld (chunkKey call properties c))
    (hapart : Apart env (chunkKey call properties) st.store.nextId chunks)
    (hknown : ∀ p, previous = some p → (st.store.get? p).isSome = true) (first : Bool) :
    ∃ (jobs : List JobId) (st' : Session),
      Visits (delay env (fuel + 1)) self wire previous first refs st (jobs.map some) st' := by
  induction refs generalizing st previous first chunks with
  | nil =>
    cases hleaves
    exact ⟨[], st, .nil⟩
  | cons r refs ih =>
    cases hleaves with
    | @cons _ c _ chunks hleaf hleaves =>
      obtain ⟨hr, hnodup⟩ := List.nodup_cons.mp hnodup
      obtain ⟨hne, hself⟩ := List.ne_and_not_mem_of_not_mem_cons hself
      obtain ⟨hunwired, hunwireds⟩ := List.forall_mem_cons.mp hunwired
      let st₁ : Session := { st with
        heap := Function.update st.heap r (wire (st.heap self) previous first (st.heap r)) }
      have hwired : Returns (assign r (wire (st.heap self) previous first)) st () st₁ := rfl
      have hlinks := hwire (st.heap self) previous first
      have hleaf₁ : st₁.Leaf (call.ofChunk c) properties r :=
        hleaf.congr (by simpa [st₁] using hlinks (st.heap r))
      have hparent : st₁.ParentKnown r := by
        intro p hp
        simp only [st₁, Function.update_self] at hp
        rcases hprevious previous first (st.heap r) hunwired with hnone | hprevious
        · cases hp.symm.trans hnone
        · exact hknown p (hprevious.symm.trans hp)
      obtain ⟨job, st₂, hdelay⟩ := exists_delay_leaf fuel htakes hleaf₁ hparent
        (List.forall_mem_cons.mp hfree).1
      obtain ⟨hheap, j, hj, hsubmitted⟩ := submitted_of_delay hlinks hleaf hwired hdelay
      obtain rfl := Option.some.inj hj
      obtain ⟨_, hfree, hapart, hrow⟩ := hsubmitted.step hfree hapart
      have hother (a : Ref) (ha : a ∈ refs) : st₂.heap a = st.heap a :=
        hheap a (ne_of_mem_of_not_mem ha hr)
      have hknown : ∀ p, some job = some p → (st₂.store.get? p).isSome = true :=
        fun p hp ↦ Option.some.inj hp ▸ hrow
      obtain ⟨jobs, st', hrest⟩ := ih (hheap self hne ▸ hprevious) hself hnodup
        (Session.Leaves.congr hleaves hother) (fun a ha ↦ hother a ha ▸ hunwireds a ha) hfree hapart
        hknown false
      exact ⟨job :: jobs, st', .cons hwired hdelay hrest⟩

end Exists

/-! ### The group or the chain -/

section Compound

variable {env : DelayEnv} {st st' : Session} {call : DelayableCall}
  {properties : DelayableProperties} {g : Ref} {refs : List Ref} {chunks : List (List Nat)}
  {job : Option JobId} {fuel graphUuid : Nat} {chain : Bool}

theorem returns_delayMembers {delay : Ref → Delaying (Option JobId)} {previous : Option JobId}
    {first : Bool} {jobs : List JobId}
    (h : Visits delay g (fun g _ _ ↦ wireMember graphUuid g) previous first refs st
      (jobs.map some) st') : Returns (delayMembers delay g graphUuid refs) st jobs st' := by
  induction refs generalizing st previous first jobs with
  | nil =>
    cases jobs with
    | nil =>
      cases h
      exact returns_pure.mpr ⟨rfl, rfl⟩
    | cons j jobs => cases h
  | cons r refs ih =>
    cases jobs with
    | nil => cases h
    | cons j jobs =>
      cases h with
      | cons ha hd hrest =>
        refine returns_bind.mpr ⟨_, _, rfl, returns_bind.mpr ⟨(), _, ha, ?_⟩⟩
        exact returns_bind.mpr ⟨_, _, hd, returns_bind.mpr ⟨_, _, ih hrest,
          returns_pure.mpr ⟨rfl, rfl⟩⟩⟩

theorem returns_delaySteps {delay : Ref → Delaying (Option JobId)} {previous : Option JobId}
    {first : Bool} {jobs : List (Option JobId)}
    (h : Visits delay g (fun g previous first ↦ wireStep graphUuid previous first g) previous first
      refs st jobs st') :
    ∃ last, Returns (delaySteps delay g graphUuid previous first refs) st last st' := by
  induction h with
  | nil => exact ⟨_, returns_pure.mpr ⟨rfl, rfl⟩⟩
  | cons ha hd _ ih =>
    obtain ⟨last, hrest⟩ := ih
    exact ⟨last, returns_bind.mpr ⟨_, _, rfl, returns_bind.mpr ⟨(), _, ha,
      returns_bind.mpr ⟨_, _, hd, hrest⟩⟩⟩⟩

/-- Delaying the result of `split` submits the chunks. -/
theorem submissions_of_delay (hg : st.heap g = splitScheduler chain refs) (hself : g ∉ refs)
    (hnodup : refs.Nodup) (hleaves : st.Leaves call properties refs chunks)
    (h : Returns (delay env fuel g) st job st') :
    Submissions env (chunkKey call properties) st.store chunks st'.store := by
  -- Neither the group nor the chain has callbacks, so its loop is all there is.
  have hloop {fuel u : Nat} {st₁ st₂ st₃ : Session} {jobs jobs₁ jobs₂ : List (Option JobId)}
      {wire wire₁ wire₂ : Wire} {delay : Ref → Delaying (Option JobId)}
      (hlinks : KeepsLinks wire) (hu : Returns (graphUuidOf g) st u st₁)
      (hmembers : Visits (Delaying.delay env fuel) g wire none true refs st₁ jobs st₂)
      (hnext : Visits delay g wire₁ none true (st₂.heap g).nextDelayables st₂ jobs₁ st₃)
      (herror : Visits delay g wire₂ none true (st₂.heap g).onErrorDelayables st₃ jobs₂ st') :
      Submissions env (chunkKey call properties) st.store chunks st'.store := by
    obtain ⟨hheap, hstore⟩ := eq_of_graphUuidOf hu
    have hleaves₁ : st₁.Leaves call properties refs chunks :=
      hleaves.congr fun a _ ↦ congrFun hheap a
    obtain ⟨hother, hsubmissions⟩ := submissions_of_visits hlinks hmembers hnodup hleaves₁
    rw [hother g hself, hheap, hg] at hnext herror
    cases hnext
    cases herror
    rwa [hstore] at hsubmissions
  cases fuel with
  | zero => cases h
  | succ fuel =>
    cases call_of_delay h with
    | known hcls =>
      rw [hg, splitScheduler] at hcls
      cases chain <;> cases hcls
    | delayable hcls =>
      rw [hg, splitScheduler] at hcls
      cases chain <;> cases hcls
    | group hcls hu hmembers hnext herror =>
      rw [hg, splitScheduler] at hcls
      cases chain with
      | true => cases hcls
      | false =>
        cases hcls
        exact hloop (keepsLinks_members _) hu hmembers hnext herror
    | chain hcls hu hsteps hnext herror =>
      rw [hg, splitScheduler] at hcls
      cases chain with
      | false => cases hcls
      | true =>
        cases hcls
        exact hloop (keepsLinks_steps _) hu hsteps hnext herror

/-- Where the chunks are apart, delaying the result of `split` returns. -/
theorem exists_delay (htakes : env.Takes call) (hg : st.heap g = splitScheduler chain refs)
    (hself : g ∉ refs) (hnodup : refs.Nodup) (hleaves : st.Leaves call properties refs chunks)
    (hunwired : ∀ a ∈ refs, (st.heap a).parentJobId = none)
    (hfree : ∀ c ∈ chunks, ¬ st.store.KeyHeld (chunkKey call properties c))
    (hapart : Apart env (chunkKey call properties) st.store.nextId chunks) :
    ∃ st', Returns (delay env 2 g) st none st' := by
  let st₁ : Session := { st with nextUuid := st.nextUuid + 1 }
  have hgraph : Returns (graphUuidOf g) st st.nextUuid st₁ := by
    refine returns_bind.mpr ⟨_, _, rfl, ?_⟩
    rw [hg]
    rfl
  have hleaves₁ : st₁.Leaves call properties refs chunks := hleaves.congr fun _ _ ↦ rfl
  have hnone : ∀ p, (none : Option JobId) = some p → (st₁.store.get? p).isSome = true := nofun
  have hcallbacks {st₂ : Session} (hheap : st₂.heap g = st₁.heap g)
      {next error : Scheduler → Scheduler} :
      Returns (do
        let g ← read g
        delayCallbacks (delay env 1) next g.nextDelayables
        delayCallbacks (delay env 1) error g.onErrorDelayables) st₂ () st₂ := by
    refine returns_bind.mpr ⟨_, _, rfl, ?_⟩
    rw [hheap, show st₁.heap g = _ from hg]
    exact returns_bind.mpr ⟨(), st₂, returns_pure.mpr ⟨rfl, rfl⟩, returns_pure.mpr ⟨rfl, rfl⟩⟩
  cases chain with
  | false =>
    have hprevious : FromPrevious (fun g _ _ ↦ wireMember st.nextUuid g) (st₁.heap g) := by
      intro previous first d hd
      show (wireMember st.nextUuid (st.heap g) d).parentJobId = none ∨ _
      rw [hg, wireMember, hd]
      exact .inl rfl
    obtain ⟨jobs, st₂, hvisits⟩ := exists_visits 0 htakes (keepsLinks_members _) hprevious hself
      hnodup hleaves₁ hunwired hfree hapart hnone true
    have hheap := (submissions_of_visits (keepsLinks_members _) hvisits hnodup hleaves₁).1 g hself
    refine ⟨st₂, returns_bind.mpr ⟨_, _, rfl, ?_⟩⟩
    rw [hg]
    refine returns_bind.mpr ⟨(), st₂, returns_bind.mpr ⟨_, _, hgraph, ?_⟩,
      returns_pure.mpr ⟨rfl, rfl⟩⟩
    exact returns_bind.mpr ⟨_, _, returns_delayMembers hvisits, hcallbacks hheap⟩
  | true =>
    have hprevious : FromPrevious (fun g previous first ↦ wireStep st.nextUuid previous first g)
        (st₁.heap g) := by
      intro previous first d hd
      show (wireStep st.nextUuid previous first (st.heap g) d).parentJobId = none ∨ _
      rw [hg]
      cases previous with
      | some job => exact .inr rfl
      | none => cases first <;> exact .inl (by rw [wireStep, hd]; rfl)
    obtain ⟨jobs, st₂, hvisits⟩ := exists_visits 0 htakes (keepsLinks_steps _) hprevious hself
      hnodup hleaves₁ hunwired hfree hapart hnone true
    have hheap := (submissions_of_visits (keepsLinks_steps _) hvisits hnodup hleaves₁).1 g hself
    obtain ⟨last, hsteps⟩ := returns_delaySteps hvisits
    refine ⟨st₂, returns_bind.mpr ⟨_, _, rfl, ?_⟩⟩
    rw [hg]
    refine returns_bind.mpr ⟨(), st₂, returns_bind.mpr ⟨_, _, hgraph, ?_⟩,
      returns_pure.mpr ⟨rfl, rfl⟩⟩
    exact returns_bind.mpr ⟨_, _, hsteps, hcallbacks hheap⟩

end Compound

/-! ### Splitting and delaying -/

/-- The jobs that appear from `s` to `s'` hold every id once, and at most `size` of them each. -/
structure HoldsEachOnce (ids : List Nat) (size : Int) (s s' : Store) (jobs : List JobId) :
    Prop where
  nodup : jobs.Nodup
  mem : ∀ i, i ∈ jobs ↔ s.get? i = none ∧ (s'.get? i).isSome = true
  ids : (jobs.flatMap s'.payloadIds).Perm ids
  size : ∀ i ∈ jobs, ((s'.payloadIds i).length : Int) ≤ size

/-- Delaying `g` leaves jobs that hold every id once. -/
def LosesNoRecord (env : DelayEnv) (st : Session) (g : Ref) (ids : List Nat) (size : Int) : Prop :=
  ∃ (fuel : Nat) (st' : Session) (jobs : List JobId),
    Returns (delay env fuel g) st none st' ∧ HoldsEachOnce ids size st.store st'.store jobs

/-- A callable identity key tells calls apart by their record ids. -/
def IdentityKeySpec.SeparatesIds : IdentityKeySpec → Prop
  | .value _ => True
  | .callable key => ∀ (call : DelayableCall) (ids ids' : List Nat),
    key { call with recordIds := ids } = key { call with recordIds := ids' } → ids = ids'

/-- There is nothing to split, or the size is positive and either the identity key is no
constant, or without the queue every job but the last, from `n` on, is completed before the next
one is enqueued. -/
def SplitKeeps (env : DelayEnv) (n : JobId) (call : DelayableCall)
    (properties : DelayableProperties) (size : Int) : Prop :=
  call.recordIds = [] ∨ 0 < size ∧ ∀ k, properties.identityKey = .value (some k) → k ≠ "" →
    ∀ i : Nat, ((i + 1 : Nat) : Int) * size < call.recordIds.length →
      env.CompletesAtOnce (n + i)

section Split

variable {env : DelayEnv} {st st₁ : Session} {self g fresh : Ref} {call : DelayableCall}
  {properties : DelayableProperties} {generated : Option JobId} {size : Int} {chain : Bool}
  {chunks : List (List Nat)} {key : List Nat → Option IdentityKey} {n : JobId}

theorem leaves_of_heap {base : Ref} (h : ∀ i c, chunks[i]? = some c →
    st.heap (base + i) = subDelayable call properties c) :
    st.Leaves call properties (List.range' base chunks.length) chunks := by
  induction chunks generalizing base with
  | nil => exact .nil
  | cons c chunks ih =>
    refine .cons ?_ (ih fun i c' hc' ↦ ?_)
    · have hhead := h 0 c rfl
      rw [Nat.add_zero] at hhead
      exact ⟨by rw [hhead]; rfl, by rw [hhead]; rfl, by rw [hhead]; rfl⟩
    · have htail := h (i + 1) c' hc'
      rwa [Nat.add_comm i 1, ← Nat.add_assoc] at htail

/-- What `split` returns. -/
theorem split_returns (hself : (st.heap self).cls = .delayable call properties generated)
    (h : Returns (split self size chain fresh) st g st₁) :
    st₁.store = st.store ∧ ∃ refs, st₁.heap g = splitScheduler chain refs ∧ g ∉ refs ∧
      refs.Nodup ∧ st₁.Leaves call properties refs (slices call.recordIds size) ∧
      ∀ a ∈ refs, (st₁.heap a).parentJobId = none := by
  obtain ⟨d, _, hread, hbody⟩ := returns_bind.mp h
  obtain ⟨rfl, hst⟩ := eq_of_read hread
  rw [hself, hst] at hbody
  by_cases hsize : size = 0
  · simp only [splitChunks, if_pos hsize] at hbody
    cases hbody
  · simp only [splitChunks, if_neg hsize] at hbody
    obtain ⟨_, _, hnew, hreturn⟩ := returns_bind.mp hbody
    obtain ⟨rfl, rfl⟩ := returns_pure.mp hreturn
    cases hnew
    have hsub (i : Nat) (c : List Nat) (hc : (slices call.recordIds size)[i]? = some c) :
        allocate st.heap fresh (splitScheduler chain (List.range' (fresh + 1)
          (slices call.recordIds size).length) ::
            (slices call.recordIds size).map (subDelayable call properties)) (fresh + 1 + i) =
          subDelayable call properties c := by
      have hle : fresh ≤ fresh + 1 + i := Nat.le_add_right_of_le (Nat.le_succ fresh)
      have hindex : fresh + 1 + i - fresh = i + 1 := by
        rw [Nat.add_assoc, Nat.add_sub_cancel_left, Nat.add_comm]
      rw [allocate, if_pos hle, hindex, List.getElem?_cons_succ, List.getElem?_map, hc]
      rfl
    refine ⟨rfl, _, ?_, ?_, List.nodup_range', leaves_of_heap hsub, fun a ha ↦ ?_⟩
    · show allocate _ _ _ _ = _
      rw [allocate, if_pos le_rfl, Nat.sub_self]
      rfl
    · rw [List.mem_range'_1]
      omega
    · obtain ⟨hle, hlt⟩ := List.mem_range'_1.mp ha
      obtain ⟨i, rfl⟩ := Nat.exists_eq_add_of_le hle
      have hi : i < (slices call.recordIds size).length := by omega
      show (allocate _ _ _ _).parentJobId = none
      rw [hsub i _ (List.getElem?_eq_getElem hi)]
      rfl

/-- `split` raises on the size 0 only. -/
theorem split_accepts_iff (hself : (st.heap self).cls = .delayable call properties generated) :
    (∃ g st₁, Returns (split self size chain fresh) st g st₁) ↔ size ≠ 0 := by
  constructor
  · rintro ⟨g, st₁, h⟩ hsize
    obtain ⟨d, _, hread, hbody⟩ := returns_bind.mp h
    obtain ⟨rfl, hst⟩ := eq_of_read hread
    rw [hself, hst] at hbody
    simp only [splitChunks, if_pos hsize] at hbody
    cases hbody
  · intro hsize
    let objects := splitScheduler chain (List.range' (fresh + 1)
      (slices call.recordIds size).length) ::
        (slices call.recordIds size).map (subDelayable call properties)
    let st₁ : Session := { st with heap := allocate st.heap fresh objects }
    refine ⟨fresh, st₁, returns_bind.mpr ⟨st.heap self, st, rfl, ?_⟩⟩
    rw [hself]
    simp only [splitChunks, if_neg hsize]
    exact returns_bind.mpr ⟨(), st₁, rfl, returns_pure.mpr ⟨rfl, rfl⟩⟩

theorem apart_of_pairwise (h : chunks.Pairwise fun c c' ↦ ∀ k, key c = some k → key c' ≠ some k) :
    Apart env key n chunks := by
  induction h generalizing n with
  | nil => trivial
  | cons hhead _ ih => exact ⟨.inr hhead, ih⟩

theorem apart_of_completes (h : ∀ i, i + 1 < chunks.length → env.CompletesAtOnce (n + i)) :
    Apart env key n chunks := by
  induction chunks generalizing n with
  | nil => trivial
  | cons c chunks ih =>
    refine ⟨?_, ih fun i hi ↦ ?_⟩
    · by_cases hchunks : chunks = []
      · exact .inr (by simp [hchunks])
      · exact .inl (h 0 (by simpa [List.length_pos_iff] using hchunks))
    · have hnext := h (i + 1) (Nat.succ_lt_succ hi)
      rwa [Nat.add_comm i 1, ← Nat.add_assoc] at hnext

theorem flatMap_payloadIds {s' : Store} {created : List (JobId × List Nat)}
    (h : ∀ p ∈ created, s'.payloadIds p.1 = p.2) :
    (created.map Prod.fst).flatMap s'.payloadIds = (created.map Prod.snd).flatten := by
  rw [List.flatMap_def, List.map_map]
  congr 1
  exact List.map_congr_left fun p hp ↦ h p hp

theorem storedIdentityKey_eq_some {o : Option String} {k : IdentityKey}
    (h : storedIdentityKey o = some k) : o = some k.1 := by
  cases o with
  | none => cases h
  | some name =>
    unfold storedIdentityKey at h
    dsimp only at h
    split at h
    · cases h
    · cases h
      rfl

/-- The chunks are apart when the size is positive and the key is no constant that stays held. -/
theorem apart_of_splitKeeps (hids : call.recordIds.Nodup) (htakes : env.Takes call)
    (hkey : properties.identityKey.SeparatesIds) (h : SplitKeeps env n call properties size) :
    Apart env (chunkKey call properties) n (slices call.recordIds size) := by
  have hnokey (hnone : ∀ c, chunkKey call properties c = none) :
      Apart env (chunkKey call properties) n (slices call.recordIds size) := by
    apply apart_of_pairwise
    refine List.pairwise_of_forall fun c _ k hk ↦ ?_
    cases (hnone c).symm.trans hk
  rcases h with hnil | ⟨hsize, hconstant⟩
  · rw [hnil, slices_nil]
    trivial
  · cases hspec : properties.identityKey with
    | value constant =>
      have hchunk (c : List Nat) : chunkKey call properties c = storedIdentityKey constant := by
        rw [chunkKey, hspec]
        rfl
      cases hstored : storedIdentityKey constant with
      | none => exact hnokey fun c ↦ (hchunk c).trans hstored
      | some k =>
        have hsome := storedIdentityKey_eq_some hstored
        refine apart_of_completes fun i hi ↦ ?_
        exact hconstant k.1 (by rw [hspec, hsome]) k.2 i ((lt_length_slices hsize).mp hi)
    | callable key =>
      rw [hspec] at hkey
      apply apart_of_pairwise
      refine (pairwise_ne_slices hids).imp fun {c c'} hne k hk hk' ↦ hne ?_
      rw [chunkKey, hspec, ofChunk_of_takes htakes] at hk hk'
      exact hkey call c c'
        ((storedIdentityKey_eq_some hk).trans (storedIdentityKey_eq_some hk').symm)

/-- Where no record is lost every chunk has got a new job. -/
theorem splitKeeps_of_losesNoRecord
    (hself : (st.heap self).cls = .delayable call properties generated)
    (hsplit : Returns (split self size chain fresh) st g st₁)
    (h : LosesNoRecord env st₁ g call.recordIds size) :
    SplitKeeps env st.store.nextId call properties size := by
  obtain ⟨hstore, refs, hg, hnotself, hnodup, hleaves, _⟩ := split_returns hself hsplit
  rw [← hstore]
  obtain ⟨fuel, st', jobs, hreturns, hholds⟩ := h
  have hsubmissions := submissions_of_delay hg hnotself hnodup hleaves hreturns
  obtain ⟨created, hcreates⟩ := hsubmissions.creates
  -- The new jobs hold the chunks that got one.
  have hjobs : jobs.Perm (created.map Prod.fst) :=
    (List.perm_ext_iff_of_nodup hholds.nodup hcreates.nodup).mpr fun i ↦
      (hholds.mem i).trans (hcreates.mem i).symm
  have hheld : (created.map Prod.snd).flatten.Perm call.recordIds := by
    rw [← flatMap_payloadIds hcreates.payloadIds]
    exact (hjobs.flatMap_right _).symm.trans hholds.ids
  by_cases hnil : call.recordIds = []
  · exact .inl hnil
  · have hsize : 0 < size := by
      by_contra hsize
      have hnone : slices call.recordIds size = [] := by
        rw [slices, indices, if_neg hsize, List.map_nil]
      have hsublist := hcreates.sublist
      rw [hnone, List.sublist_nil] at hsublist
      rw [hsublist] at hheld
      exact hnil hheld.symm.eq_nil
    refine .inr ⟨hsize, fun k hspec hk i hi ↦ ?_⟩
    have hall : created.map Prod.snd = slices call.recordIds size :=
      eq_of_sublist_of_length_flatten hcreates.sublist (fun _ ↦ ne_nil_of_mem_slices)
        (by rw [flatten_slices hsize, hheld.length_eq])
    have hconstant : chunkKey call properties = fun _ ↦ some ⟨k, hk⟩ := by
      funext c
      rw [chunkKey, hspec]
      exact dif_neg hk
    rw [hconstant] at hsubmissions
    apply hsubmissions.completes
    · rw [hcreates.nextId, ← hall, List.length_map]
    · exact (lt_length_slices hsize).mpr hi

/-- Every chunk gets a new job when they are apart. -/
theorem losesNoRecord_of_splitKeeps
    (hself : (st.heap self).cls = .delayable call properties generated)
    (hids : call.recordIds.Nodup) (htakes : env.Takes call)
    (hkey : properties.identityKey.SeparatesIds)
    (hfree : ∀ c ∈ slices call.recordIds size, ¬ st.store.KeyHeld (chunkKey call properties c))
    (hsplit : Returns (split self size chain fresh) st g st₁)
    (hkeeps : SplitKeeps env st.store.nextId call properties size) :
    LosesNoRecord env st₁ g call.recordIds size := by
  obtain ⟨hstore, refs, hg, hnotself, hnodup, hleaves, hunwired⟩ := split_returns hself hsplit
  rw [← hstore] at hfree hkeeps
  have hapart := apart_of_splitKeeps hids htakes hkey hkeeps
  obtain ⟨st', hreturns⟩ :=
    exists_delay htakes hg hnotself hnodup hleaves hunwired hfree hapart
  have hsubmissions := submissions_of_delay hg hnotself hnodup hleaves hreturns
  obtain ⟨created, hcreates⟩ := hsubmissions.creates
  have hcount := hsubmissions.all_created hfree hapart
  rw [hcreates.nextId] at hcount
  have hall : created.map Prod.snd = slices call.recordIds size :=
    hcreates.sublist.eq_of_length (by rw [List.length_map, Nat.add_left_cancel hcount])
  refine ⟨2, st', created.map Prod.fst, hreturns, hcreates.nodup, hcreates.mem, ?_, ?_⟩
  · rw [flatMap_payloadIds hcreates.payloadIds, hall]
    rcases hkeeps with hnil | ⟨hsize, _⟩
    · rw [hnil, slices_nil]
      rfl
    · rw [flatten_slices hsize]
  · intro i hi
    obtain ⟨p, hp, rfl⟩ := List.mem_map.mp hi
    rw [hcreates.payloadIds p hp]
    exact length_le_of_mem_slices (hall ▸ List.mem_map_of_mem hp)

end Split

/-- Delaying the result of `split` loses no record exactly if there is none, or the size is
positive and no chunk finds the constant identity key held by an earlier one. -/
theorem split_losesNoRecord_iff {env : DelayEnv} {st st₁ : Session} {self g fresh : Ref}
    {call : DelayableCall} {properties : DelayableProperties} {generated : Option JobId}
    {size : Int} {chain : Bool}
    (hself : (st.heap self).cls = .delayable call properties generated)
    (hids : call.recordIds.Nodup) (htakes : env.Takes call)
    (hkey : properties.identityKey.SeparatesIds)
    (hfree : ∀ c ∈ slices call.recordIds size, ¬ st.store.KeyHeld (chunkKey call properties c))
    (hsplit : Returns (split self size chain fresh) st g st₁) :
    LosesNoRecord env st₁ g call.recordIds size ↔
      SplitKeeps env st.store.nextId call properties size :=
  ⟨splitKeeps_of_losesNoRecord hself hsplit,
    losesNoRecord_of_splitKeeps hself hids htakes hkey hfree hsplit⟩

/-! ### Two records -/

/-- `ping` on the partners 1 and 2. -/
def pingPartners : DelayableCall where
  modelName := "res.partner"
  recordIds := [1, 2]
  jobMethod := some "ping"

/-- One delayable, and an empty table. -/
def pingSession (identityKey : IdentityKeySpec) : Session where
  heap _ := { cls := .delayable pingPartners { identityKey := identityKey } none }
  store := .empty

theorem takes_pingPartners : DelayEnv.Takes {} pingPartners where
  named := by decide
  registered := rfl
  method := ⟨"ping", rfl, by decide, by decide +kernel⟩
  runs := nofun

theorem not_keyHeld_empty (key : Option IdentityKey) : ¬ Store.empty.KeyHeld key := by
  rintro ⟨k, i, _, r, hr, _⟩
  rw [Store.get?_empty] at hr
  cases hr

/-- Chunks of one partner in a chain, without an identity key. -/
theorem split_losesNoRecord_withoutKey : ∃ g st₁,
    Returns (split 0 1 true 1) (pingSession (.value none)) g st₁ ∧
      LosesNoRecord {} st₁ g [1, 2] 1 := by
  have hself : ((pingSession (.value none)).heap 0).cls = .delayable pingPartners {} none := rfl
  have haccepts : ∃ g st₁, Returns (split 0 1 true 1) (pingSession (.value none)) g st₁ :=
    (split_accepts_iff hself).mpr (by decide)
  obtain ⟨g, st₁, hsplit⟩ := haccepts
  exact ⟨g, st₁, hsplit, (split_losesNoRecord_iff hself (by decide) takes_pingPartners trivial
    (fun _ _ ↦ not_keyHeld_empty _) hsplit).mpr (.inr ⟨by decide, nofun⟩)⟩

/-- Chunks of one partner in a group, with the key `import` for all of them. -/
theorem not_losesNoRecord_constantKey : ∃ g st₁,
    Returns (split 0 1 false 1) (pingSession (.value (some "import"))) g st₁ ∧
      (∀ c ∈ slices [1, 2] 1, ¬ (pingSession (.value (some "import"))).store.KeyHeld
        (chunkKey pingPartners { identityKey := .value (some "import") } c)) ∧
      ¬ LosesNoRecord {} st₁ g [1, 2] 1 := by
  have hself : ((pingSession (.value (some "import"))).heap 0).cls =
      .delayable pingPartners { identityKey := .value (some "import") } none := rfl
  have haccepts : ∃ g st₁,
      Returns (split 0 1 false 1) (pingSession (.value (some "import"))) g st₁ :=
    (split_accepts_iff hself).mpr (by decide)
  obtain ⟨g, st₁, hsplit⟩ := haccepts
  refine ⟨g, st₁, hsplit, fun _ _ ↦ not_keyHeld_empty _, fun h ↦ ?_⟩
  rcases splitKeeps_of_losesNoRecord hself hsplit h with hnil | ⟨_, hconstant⟩
  · cases hnil
  · exact absurd (hconstant "import" rfl (by decide) 0 (by decide)).1 (by decide)

end JobWorker
