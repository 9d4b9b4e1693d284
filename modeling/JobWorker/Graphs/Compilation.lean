import JobWorker.Graphs.Forest
import Mathlib.Data.Fintype.EquivFin

/-!
# What delay makes of a tree

`delay` of a scheduler gives every `Delayable` of its tree a new job, whose row carries the
wiring that the loops have assigned, and leaves that wiring on the objects
(`job_worker/delay.py:120–165,240–331`, `models/queue_job.py:1016–1036`). So the final heap
tells which job waits on which.
-/

namespace JobWorker

open Delaying

/-- The row that `enqueue` creates for a delayable with the wiring `c`. -/
structure Enqueued (c : Context) (row : Job) : Prop where
  parentId : row.parentId = c.parentJobId.filter (· ≠ 0)
  dependencyJobIds : row.dependencyJobIds = c.dependencyJobIds
  count : row.pendingDependencyCount = (c.dependencyJobIds.getD []).length
  runOnFailure : row.runOnFailure = c.runOnFailure
  state : row.state = if c.parentJobId.any (· ≠ 0) ∨ c.dependencyJobIds.getD [] ≠ [] then
    .waiting else .pending

namespace Session

/-- The callbacks of an object carry the wiring `c`, on_error callbacks as such. -/
def CallbacksWired (st : Session) (a : Ref) (c : Context) : Prop :=
  (∀ x ∈ (st.heap a).nextDelayables, (st.heap x).context = c) ∧
    ∀ x ∈ (st.heap a).onErrorDelayables, (st.heap x).context = { c with runOnFailure := true }

/-- The row of a delayable, and the wiring that a delayable, a group or a chain has handed
on. -/
def Wired (st : Session) (a : Ref) : Prop :=
  match (st.heap a).cls with
  | .delayable _ _ job => ∃ j row, job = some j ∧ st.store.get? j = some row ∧
      Enqueued (st.heap a).context row ∧
      (row.graphUuid = (st.heap a).graphUuid ∨
        (st.heap a).graphUuid = none ∧ row.graphUuid.isSome = true) ∧
      (((st.heap a).nextDelayables ≠ [] ∨ (st.heap a).onErrorDelayables ≠ []) →
        row.graphUuid.isSome = true) ∧
      st.CallbacksWired a ⟨row.graphUuid, some j, none, false⟩
  | .group delayables => ∃ u, (∀ v, (st.heap a).graphUuid = some v → v = u) ∧
      (∀ d ∈ delayables,
        (st.heap d).context = { (st.heap a).context with graphUuid := some u }) ∧
      st.CallbacksWired a ⟨some u, none, some (delayables.filterMap st.jobOf), false⟩
  | .chain delayables => ∃ u, (∀ v, (st.heap a).graphUuid = some v → v = u) ∧
      Handed (fun g previous first ↦ wireStep u previous first g) (st.heap a) st none true
        delayables ∧
      st.CallbacksWired a ⟨some u, delayables.getLast?.bind st.jobOf, none, false⟩

end Session

/-- The class of an object without its generated job. -/
def Scheduler.shape (d : Scheduler) : SchedulerClass :=
  match d.cls with
  | .delayable call properties _ => .delayable call properties none
  | c => c

/-- From `st` to `st'` the objects `refs` have changed but for what they are and link to, and
the delayables among them have got new rows, which no others have. -/
structure Adds (refs : List Ref) (st st' : Session) : Prop where
  outside : ∀ a, a ∉ refs → st'.heap a = st.heap a
  shape : ∀ a, (st'.heap a).shape = (st.heap a).shape
  nextDelayables : ∀ a, (st'.heap a).nextDelayables = (st.heap a).nextDelayables
  onErrorDelayables : ∀ a, (st'.heap a).onErrorDelayables = (st.heap a).onErrorDelayables
  rows : ∀ i row, st.store.get? i = some row → st'.store.get? i = some row
  fresh : ∀ a ∈ refs, ∀ j, st'.jobOf a = some j → 0 < j ∧ st.store.get? j = none ∧
    (st'.store.get? j).isSome = true
  distinct : ∀ a ∈ refs, ∀ b ∈ refs, ∀ j, st'.jobOf a = some j → st'.jobOf b = some j → a = b
  identityKey : ∀ i row, st'.store.get? i = some row → st.store.get? i = some row ∨
    ∃ a ∈ refs, row.identityKey = (st.heap a).identityKey
  nextId : 0 < st'.store.nextId

/-- The objects `refs` are closed under links, and `delay` has taken them from `st` to `st'`. -/
structure Compiles (refs : List Ref) (st st' : Session) : Prop extends Adds refs st st' where
  closed : ∀ a ∈ refs, ∀ x ∈ (st'.heap a).links, x ∈ refs
  wired : ∀ a ∈ refs, st'.Wired a

/-- The identity keys of the delayables are all different, and no active job that the caller
sees holds one of them. -/
def FreeKeys (env : DelayEnv) (st : Session) (refs : List Ref) : Prop :=
  ∀ r ∈ refs, ∀ k, (st.heap r).identityKey = some k →
    findByIdentityKey env.orm st.store k = none ∧
      ∀ r' ∈ refs, r' ≠ r → (st.heap r').identityKey ≠ some k

section Composition

variable {env : DelayEnv} {refs refs' : List Ref} {st st₁ st' : Session} {a : Ref}

/-- Objects that stay keep their jobs. -/
theorem jobOf_congr (h : st'.heap a = st.heap a) : st'.jobOf a = st.jobOf a := by
  rw [Session.jobOf, Session.jobOf, h]

/-- The key does not depend on the generated job. -/
theorem identityKey_of_shape {d d' : Scheduler} (h : d'.shape = d.shape) :
    d'.identityKey = d.identityKey := by
  have hkey (d : Scheduler) : d.identityKey = match d.shape with
      | .delayable call properties _ => storedIdentityKey (properties.identityKey.resolved call)
      | _ => none := by
    unfold Scheduler.identityKey Scheduler.shape
    cases d.cls <;> rfl
  rw [hkey, hkey, h]

/-- Neither do the links. -/
theorem links_of_shape {d d' : Scheduler} (h : d'.shape = d.shape)
    (hnext : d'.nextDelayables = d.nextDelayables)
    (herror : d'.onErrorDelayables = d.onErrorDelayables) : d'.links = d.links := by
  have hlinks (d : Scheduler) : d.links = match d.shape with
      | .delayable _ _ _ => d.nextDelayables ++ d.onErrorDelayables
      | .group delayables | .chain delayables =>
        delayables ++ (d.nextDelayables ++ d.onErrorDelayables) := by
    unfold Scheduler.links Scheduler.shape
    cases d.cls <;> rfl
  rw [hlinks, hlinks, h, hnext, herror]

/-- Objects that stay keep their callbacks wired. -/
theorem callbacksWired_mono {c : Context} (h : st.CallbacksWired a c)
    (hself : st'.heap a = st.heap a)
    (hnext : ∀ x ∈ (st.heap a).nextDelayables, st'.heap x = st.heap x)
    (herror : ∀ x ∈ (st.heap a).onErrorDelayables, st'.heap x = st.heap x) :
    st'.CallbacksWired a c := by
  refine ⟨fun x hx ↦ ?_, fun x hx ↦ ?_⟩
  · rw [hself] at hx
    rw [hnext x hx]
    exact h.1 x hx
  · rw [hself] at hx
    rw [herror x hx]
    exact h.2 x hx

/-- Objects that stay keep what a loop has handed to them. -/
theorem handed_congr {wire : Wire} {g : Scheduler} {previous : Option JobId} {first : Bool}
    {roots : List Ref} (hroots : ∀ x ∈ roots, st'.heap x = st.heap x)
    (h : Handed wire g st previous first roots) : Handed wire g st' previous first roots := by
  induction roots generalizing previous first with
  | nil => trivial
  | cons r roots ih =>
    have hr := hroots r List.mem_cons_self
    rw [Handed, hr, jobOf_congr hr]
    exact ⟨h.1, ih (fun x hx ↦ hroots x (List.mem_cons_of_mem _ hx)) h.2⟩

/-- Objects and rows that stay keep an object wired. -/
theorem wired_mono (h : st.Wired a) (hself : st'.heap a = st.heap a)
    (hlinks : ∀ x ∈ (st.heap a).links, st'.heap x = st.heap x)
    (hrows : ∀ i row, st.store.get? i = some row → st'.store.get? i = some row) :
    st'.Wired a := by
  have hjob {x : Ref} (hx : x ∈ (st.heap a).links) : st'.jobOf x = st.jobOf x :=
    jobOf_congr (hlinks x hx)
  unfold Session.Wired at h ⊢
  rw [hself]
  unfold Scheduler.links at hlinks hjob
  cases hcls : (st.heap a).cls with
  | delayable call properties job =>
    rw [hcls] at h hlinks
    obtain ⟨j, row, hj, hrow, hcols, hgraph, hopens, hcallbacks⟩ := h
    exact ⟨j, row, hj, hrows j row hrow, hcols, hgraph, hopens, callbacksWired_mono hcallbacks hself
      (fun x hx ↦ hlinks x (List.mem_append_left _ hx))
      fun x hx ↦ hlinks x (List.mem_append_right _ hx)⟩
  | group delayables =>
    rw [hcls] at h hlinks hjob
    obtain ⟨u, hu, hmembers, hcallbacks⟩ := h
    have hjobs : delayables.filterMap st'.jobOf = delayables.filterMap st.jobOf :=
      List.filterMap_congr fun x hx ↦ hjob (List.mem_append_left _ hx)
    refine ⟨u, hu, fun d hd ↦ ?_, ?_⟩
    · rw [hlinks d (List.mem_append_left _ hd)]
      exact hmembers d hd
    · rw [hjobs]
      exact callbacksWired_mono hcallbacks hself
        (fun x hx ↦ hlinks x (List.mem_append_right _ (List.mem_append_left _ hx)))
        fun x hx ↦ hlinks x (List.mem_append_right _ (List.mem_append_right _ hx))
  | chain delayables =>
    rw [hcls] at h hlinks hjob
    obtain ⟨u, hu, hsteps, hcallbacks⟩ := h
    have hlast : delayables.getLast?.bind st'.jobOf = delayables.getLast?.bind st.jobOf :=
      Option.bind_congr fun x hx ↦ hjob (List.mem_append_left _ (List.mem_of_getLast? hx))
    refine ⟨u, hu, handed_congr (fun x hx ↦ hlinks x (List.mem_append_left _ hx)) hsteps, ?_⟩
    rw [hlast]
    exact callbacksWired_mono hcallbacks hself
      (fun x hx ↦ hlinks x (List.mem_append_right _ (List.mem_append_left _ hx)))
      fun x hx ↦ hlinks x (List.mem_append_right _ (List.mem_append_right _ hx))

/-- No object, nothing changes. -/
theorem Compiles.refl (h : 0 < st.store.nextId) : Compiles [] st st where
  outside _ _ := rfl
  shape _ := rfl
  nextDelayables _ := rfl
  onErrorDelayables _ := rfl
  rows _ _ := id
  fresh _ h := by cases h
  distinct _ h := by cases h
  identityKey _ _ := .inl
  nextId := h
  closed _ h := by cases h
  wired _ h := by cases h

/-- Disjoint objects one after the other. -/
theorem Adds.trans (h : Adds refs st st₁) (h' : Adds refs' st₁ st')
    (hdisjoint : ∀ a ∈ refs, a ∉ refs') : Adds (refs ++ refs') st st' := by
  have hjob {a : Ref} (ha : a ∈ refs) : st'.jobOf a = st₁.jobOf a :=
    jobOf_congr (h'.outside a (hdisjoint a ha))
  -- A job of the first objects has its row before the second ones get theirs.
  have hapart {a b : Ref} {j : JobId} (ha : a ∈ refs) (hb : b ∈ refs') (hja : st'.jobOf a = some j)
      (hjb : st'.jobOf b = some j) : False := by
    have hrow := (h.fresh a ha j (hjob ha ▸ hja)).2.2
    rw [(h'.fresh b hb j hjb).2.1] at hrow
    cases hrow
  constructor
  case outside =>
    intro a ha
    rw [List.mem_append, not_or] at ha
    rw [h'.outside a ha.2, h.outside a ha.1]
  case shape => exact fun a ↦ (h'.shape a).trans (h.shape a)
  case nextDelayables => exact fun a ↦ (h'.nextDelayables a).trans (h.nextDelayables a)
  case onErrorDelayables => exact fun a ↦ (h'.onErrorDelayables a).trans (h.onErrorDelayables a)
  case rows => exact fun i row hr ↦ h'.rows i row (h.rows i row hr)
  case fresh =>
    intro a ha j hj
    rcases List.mem_append.mp ha with ha | ha
    · obtain ⟨hpos, hnone, hsome⟩ := h.fresh a ha j (hjob ha ▸ hj)
      obtain ⟨row, hrow⟩ := Option.isSome_iff_exists.mp hsome
      exact ⟨hpos, hnone, by rw [h'.rows j row hrow]; rfl⟩
    · obtain ⟨hpos, hnone, hsome⟩ := h'.fresh a ha j hj
      refine ⟨hpos, ?_, hsome⟩
      by_contra hn
      obtain ⟨row, hrow⟩ := Option.ne_none_iff_exists'.mp hn
      rw [h.rows j row hrow] at hnone
      cases hnone
  case distinct =>
    intro a ha b hb j hja hjb
    rcases List.mem_append.mp ha with ha | ha <;> rcases List.mem_append.mp hb with hb | hb
    · exact h.distinct a ha b hb j (hjob ha ▸ hja) (hjob hb ▸ hjb)
    · exact (hapart ha hb hja hjb).elim
    · exact (hapart hb ha hjb hja).elim
    · exact h'.distinct a ha b hb j hja hjb
  case identityKey =>
    intro i row hr
    rcases h'.identityKey i row hr with hr | ⟨b, hb, hkey⟩
    · rcases h.identityKey i row hr with hr | ⟨a, ha, hkey⟩
      · exact .inl hr
      · exact .inr ⟨a, List.mem_append_left _ ha, hkey⟩
    · refine .inr ⟨b, List.mem_append_right _ hb, ?_⟩
      rw [hkey, h.outside b fun ha ↦ hdisjoint b ha hb]
  case nextId => exact h'.nextId

/-- Disjoint trees one after the other. -/
theorem Compiles.trans (h : Compiles refs st st₁) (h' : Compiles refs' st₁ st')
    (hdisjoint : ∀ a ∈ refs, a ∉ refs') : Compiles (refs ++ refs') st st' where
  toAdds := h.toAdds.trans h'.toAdds hdisjoint
  closed a ha x hx := by
    rcases List.mem_append.mp ha with ha | ha
    · rw [h'.outside a (hdisjoint a ha)] at hx
      exact List.mem_append_left _ (h.closed a ha x hx)
    · exact List.mem_append_right _ (h'.closed a ha x hx)
  wired a ha := by
    have hkeep {x : Ref} (hx : x ∈ refs) : st'.heap x = st₁.heap x :=
      h'.outside x (hdisjoint x hx)
    rcases List.mem_append.mp ha with ha | ha
    · exact wired_mono (h.wired a ha) (hkeep ha) (fun x hx ↦ hkeep (h.closed a ha x hx)) h'.rows
    · exact h'.wired a ha

/-- A scheduler above its tree. -/
theorem Compiles.cons {r : Ref} (h : Adds [r] st st₁) (h' : Compiles refs st₁ st')
    (hr : r ∉ refs) (hlinks : ∀ x ∈ (st₁.heap r).links, x ∈ refs) (hwired : st'.Wired r) :
    Compiles (r :: refs) st st' where
  toAdds := h.trans h'.toAdds fun a ha ↦ by rwa [List.mem_singleton.mp ha]
  closed a ha x hx := by
    rcases List.mem_cons.mp ha with rfl | ha
    · rw [h'.outside a hr] at hx
      exact List.mem_cons_of_mem _ (hlinks x hx)
    · exact List.mem_cons_of_mem _ (h'.closed a ha x hx)
  wired a ha := by
    rcases List.mem_cons.mp ha with rfl | ha
    · exact hwired
    · exact h'.wired a ha

/-- Keys stay free when rows with other keys are added. -/
theorem FreeKeys.mono (hfree : FreeKeys env st (refs ++ refs'))
    (hheap : ∀ b ∈ refs', st₁.heap b = st.heap b)
    (hkeys : ∀ i row, st₁.store.get? i = some row → st.store.get? i = some row ∨
      ∃ a ∈ refs, row.identityKey = (st.heap a).identityKey)
    (hdisjoint : ∀ a ∈ refs, a ∉ refs') : FreeKeys env st₁ refs' := by
  intro r hr k hk
  rw [hheap r hr] at hk
  obtain ⟨hnone, hother⟩ := hfree r (List.mem_append_right _ hr) k hk
  refine ⟨?_, fun r' hr' hne ↦ ?_⟩
  · by_contra hn
    obtain ⟨j, hj⟩ := Option.ne_none_iff_exists'.mp hn
    obtain ⟨row, hrow, hsees, hkey, hactive⟩ := activeWith_of_findByIdentityKey hj
    rcases hkeys j row hrow with hold | ⟨a, ha, hka⟩
    · rw [findByIdentityKey_eq_none hnone j row hold hkey hactive] at hsees
      cases hsees
    · refine hother a (List.mem_append_left _ ha) ?_ (hka.symm.trans hkey)
      rintro rfl
      exact hdisjoint a ha hr
  · rw [hheap r' hr']
    exact hother r' (List.mem_append_right _ hr') hne

/-- Keys stay free when other objects are delayed. -/
theorem FreeKeys.after (hfree : FreeKeys env st (refs ++ refs')) (h : Adds refs st st₁)
    (hdisjoint : ∀ a ∈ refs, a ∉ refs') : FreeKeys env st₁ refs' :=
  hfree.mono (fun b hb ↦ h.outside b fun ha ↦ hdisjoint b ha hb) h.identityKey hdisjoint

/-- Fewer keys. -/
theorem FreeKeys.subset (hfree : FreeKeys env st refs) (hsub : ∀ a ∈ refs', a ∈ refs) :
    FreeKeys env st refs' := fun r hr k hk ↦
  ⟨(hfree r (hsub r hr) k hk).1, fun r' hr' ↦ (hfree r (hsub r hr) k hk).2 r' (hsub r' hr')⟩

/-- A new uuid changes no keys. -/
theorem FreeKeys.of_eq (hfree : FreeKeys env st refs)
    (heq : st₁.heap = st.heap ∧ st₁.store = st.store) : FreeKeys env st₁ refs := by
  unfold FreeKeys
  rw [heq.1, heq.2]
  exact hfree

/-- A new uuid may come before. -/
theorem Compiles.of_eq (h : Compiles refs st₁ st')
    (heq : st₁.heap = st.heap ∧ st₁.store = st.store) : Compiles refs st st' :=
  ⟨⟨heq.1 ▸ h.outside, heq.1 ▸ h.shape, heq.1 ▸ h.nextDelayables, heq.1 ▸ h.onErrorDelayables,
    heq.2 ▸ h.rows, heq.2 ▸ h.fresh, h.distinct, heq.1 ▸ heq.2 ▸ h.identityKey, h.nextId⟩,
    h.closed, h.wired⟩

/-- Wiring an object that is delayed next is part of its delay. -/
theorem Compiles.of_wire {r : Ref} {d : Scheduler}
    (h : Compiles (r :: refs) { st with heap := Function.update st.heap r d } st')
    (hwire : (st.heap r).SameLinks d) : Compiles (r :: refs) st st' := by
  have hshape (a : Ref) : (Function.update st.heap r d a).shape = (st.heap a).shape := by
    rw [Scheduler.shape, Scheduler.shape, (hwire.update a).cls]
  refine ⟨⟨fun a ha ↦ ?_, fun a ↦ (h.shape a).trans (hshape a),
    fun a ↦ (h.nextDelayables a).trans (hwire.update a).nextDelayables,
    fun a ↦ (h.onErrorDelayables a).trans (hwire.update a).onErrorDelayables,
    h.rows, h.fresh, h.distinct, fun i row hr ↦ ?_, h.nextId⟩, h.closed, h.wired⟩
  · have hne : a ≠ r := fun he ↦ ha (he ▸ List.mem_cons_self)
    exact (h.outside a ha).trans (Function.update_of_ne hne _ _)
  · rcases h.identityKey i row hr with hold | ⟨a, ha, hkey⟩
    · exact .inl hold
    · exact .inr ⟨a, ha, hkey.trans (identityKey_of_shape (hshape a))⟩

/-- Wiring changes no key. -/
theorem freeKeys_wire {r : Ref} {d : Scheduler} (hwire : (st.heap r).SameLinks d)
    (hfree : FreeKeys env st refs) :
    FreeKeys env { st with heap := Function.update st.heap r d } refs := by
  have hkeys (a : Ref) : (Function.update st.heap r d a).identityKey = (st.heap a).identityKey := by
    rw [Scheduler.identityKey, Scheduler.identityKey, (hwire.update a).cls]
  intro a ha k hk
  refine ⟨(hfree a ha k (hkeys a ▸ hk)).1, fun b hb hne ↦ ?_⟩
  rw [hkeys b]
  exact (hfree a ha k (hkeys a ▸ hk)).2 b hb hne

end Composition

/-! ### One scheduler -/

/-- What is to be shown of a loop over the roots of a forest whose objects are `refs`. -/
def LoopSpec (env : DelayEnv) (heap : Ref → Scheduler) (roots refs : List Ref) : Prop :=
  ∀ (fuel : Nat) (self : Ref) (wire : Wire) (previous : Option JobId) (first : Bool)
    (st st' : Session) (jobs : List (Option JobId)),
    refs.Nodup → (∀ a ∈ refs, (heap a).context = {}) → self ∉ refs → wire.Wires →
    (∀ a ∈ refs, st.heap a = heap a) → FreeKeys env st refs → 0 < st.store.nextId →
    Visits (delay env fuel) self wire previous first roots st jobs st' →
    Compiles refs st st' ∧ Handed wire (st.heap self) st' previous first roots ∧
      jobs = roots.map st'.jobOf

/-- What is to be shown of one scheduler that has been wired. -/
def NodeSpec (env : DelayEnv) (heap : Ref → Scheduler) (r : Ref) (refs : List Ref) : Prop :=
  ∀ (fuel : Nat) (st st' : Session) (job : Option JobId),
    (r :: refs).Nodup → (∀ a ∈ refs, (heap a).context = {}) →
    (∀ a ∈ refs, st.heap a = heap a) → (heap r).SameLinks (st.heap r) →
    FreeKeys env st (r :: refs) → 0 < st.store.nextId → Returns (delay env fuel r) st job st' →
    Compiles (r :: refs) st st' ∧ (st'.heap r).context = (st.heap r).context ∧
      job = st'.jobOf r

section Node

variable {env : DelayEnv} {heap : Ref → Scheduler} {r : Ref} {st st' : Session}

/-- A loop over nothing. -/
theorem loopSpec_nil : LoopSpec env heap [] [] := by
  intro fuel self wire previous first st st' jobs _ _ _ _ _ _ hnext h
  cases h
  exact ⟨.refl hnext, trivial, rfl⟩

/-- The wiring of an object that a loop visits comes before its `delay`, and the loop goes on
with other objects. -/
theorem loopSpec_cons {roots refs rest : List Ref} (hnode : NodeSpec env heap r refs)
    (hrest : LoopSpec env heap roots rest) :
    LoopSpec env heap (r :: roots) (r :: refs ++ rest) := by
  intro fuel self wire previous first st st' jobs hnodup hunwired hself hwires hheap hfree hnext h
  cases h with
  | @cons _ job _ _ _ _ st₁ st₂ _ jobs ha hdelay hvisits =>
    cases ha
    obtain ⟨hnodup₁, hnodup₂, hdisjoint⟩ := List.nodup_append'.mp hnodup
    have hr : r ∈ r :: refs := List.mem_cons_self
    have hsub : ∀ a ∈ r :: refs, a ∈ r :: refs ++ rest := fun a ↦ List.mem_append_left _
    have hsub' : ∀ a ∈ rest, a ∈ r :: refs ++ rest := fun a ↦ List.mem_append_right _
    have hrefs {a : Ref} (ha : a ∈ refs) : a ≠ r := by
      rintro rfl
      exact (List.nodup_cons.mp hnodup₁).1 ha
    rw [List.mem_append, not_or] at hself
    have hwire := hwires.sameLinks (st.heap self) previous first (st.heap r)
    have hunwiredr : (st.heap r).context = {} := hheap r (hsub r hr) ▸ hunwired r (hsub r hr)
    have hcontext' := hwires.context (st.heap self) previous first (st.heap r) hunwiredr
    generalize wire (st.heap self) previous first (st.heap r) = d at hdelay hwire hcontext'
    have hown : ({ st with heap := Function.update st.heap r d } : Session).heap r = d :=
      Function.update_self _ _ _
    obtain ⟨hcomp, hcontext, rfl⟩ := hnode fuel _ st₂ job hnodup₁
      (fun a ha ↦ hunwired a (hsub a (List.mem_cons_of_mem _ ha)))
      (fun a ha ↦ (Function.update_of_ne (hrefs ha) _ _).trans
        (hheap a (hsub a (List.mem_cons_of_mem _ ha))))
      (by rw [hown, ← hheap r (hsub r hr)]; exact hwire)
      (freeKeys_wire hwire (hfree.subset hsub)) hnext hdelay
    have hcomp' : Compiles (r :: refs) st st₂ := hcomp.of_wire hwire
    obtain ⟨hcomp₂, hhanded, rfl⟩ := hrest fuel self wire (st₂.jobOf r) false st₂ st' jobs hnodup₂
      (fun a ha ↦ hunwired a (hsub' a ha)) hself.2 hwires
      (fun a ha ↦ (hcomp'.outside a fun h ↦ hdisjoint h ha).trans (hheap a (hsub' a ha)))
      (hfree.after hcomp'.toAdds hdisjoint) hcomp'.nextId hvisits
    have hkept : st'.heap r = st₂.heap r := hcomp₂.outside r (hdisjoint hr)
    have hjob : st'.jobOf r = st₂.jobOf r := jobOf_congr hkept
    refine ⟨hcomp'.trans hcomp₂ hdisjoint, ⟨?_, ?_⟩, ?_⟩
    · rw [hkept, hcontext, hown, hcontext']
    · rw [hjob, ← hcomp'.outside self hself.1]
      exact hhanded
    · rw [List.map_cons, hjob]

/-- `enqueue` of a delayable whose key is free creates its row. -/
theorem enqueueDelayable_created {call : DelayableCall} {properties : DelayableProperties}
    {u : Option Nat} {job : JobId}
    (h : Returns (enqueueDelayable env r call properties u) st job st')
    (hfree : ∀ k, storedIdentityKey (properties.identityKey.resolved call) = some k →
      findByIdentityKey env.orm st.store k = none) :
    ∃ row, st.store.create row = .ok (st'.store, job) ∧ Enqueued (st.heap r).context row ∧
      row.graphUuid = u ∧
      row.identityKey = storedIdentityKey (properties.identityKey.resolved call) ∧
      st'.heap = Function.update st.heap r
        { st.heap r with cls := .delayable call properties (some job) } := by
  unfold enqueueDelayable at h
  split at h
  · cases h
  obtain ⟨d, st₁, hr, h₁⟩ := returns_bind.mp h
  obtain ⟨rfl, rfl⟩ := eq_of_read hr
  obtain ⟨j, st₂, hon, h₂⟩ := returns_bind.mp h₁
  obtain ⟨_, st₃, ha, h₃⟩ := returns_bind.mp h₂
  obtain ⟨rfl, rfl⟩ := returns_pure.mp h₃
  obtain ⟨s, henq, rfl⟩ := returns_onStore.mp hon
  cases ha
  rcases enqueue_cases henq with ⟨_, hfound⟩ | ⟨eta, _, _, hcreate⟩
  · obtain ⟨k, hk, hfind⟩ := Option.bind_eq_some_iff.mp hfound
    rw [hfree k hk] at hfind
    cases hfind
  · exact ⟨_, hcreate, ⟨rfl, rfl, rfl, rfl, rfl⟩, rfl, rfl, rfl⟩

/-- Without the test mode the queue runs the job. -/
theorem eq_of_runWithoutDelay {job : JobId} (h : Returns (runWithoutDelay env job) st () st')
    (hmode : env.mustRunWithoutDelay = false) : st' = st := by
  unfold runWithoutDelay at h
  rw [hmode] at h
  exact (returns_pure.mp h).2.symm

/-- The new wiring of an object under `f` is that of `F`. -/
structure Rewires (f : Scheduler → Scheduler) (F : Context → Context) : Prop where
  sameLinks : ∀ d : Scheduler, d.SameLinks (f d)
  context : ∀ d : Scheduler, (f d).context = F d.context

/-- The wiring of a member. -/
theorem rewires_wireMember (u : Nat) (g : Scheduler) :
    Rewires (wireMember u g) fun c ↦ ⟨some u, c.parentJobId <|> g.parentJobId,
      c.dependencyJobIds <|> g.dependencyJobIds, g.runOnFailure || c.runOnFailure⟩ :=
  ⟨fun _ ↦ ⟨rfl, rfl, rfl⟩, fun _ ↦ rfl⟩

/-- The wiring of a step. -/
theorem rewires_wireStep (u : Nat) (previous : Option JobId) (first : Bool) (g : Scheduler) :
    Rewires (wireStep u previous first g) fun c ↦ ⟨some u,
      match previous with
      | some job => some job
      | none => if first then c.parentJobId <|> g.parentJobId else c.parentJobId,
      if first then c.dependencyJobIds <|> g.dependencyJobIds else c.dependencyJobIds,
      g.runOnFailure || c.runOnFailure⟩ :=
  ⟨fun _ ↦ ⟨rfl, rfl, rfl⟩, fun _ ↦ rfl⟩

/-- The wiring of a callback of a delayable. -/
theorem rewires_wireCallback (u : Option Nat) (j : JobId) (g : Scheduler)
    (previous : Option JobId) (first : Bool) : Rewires (wireCallback u j g previous first)
      fun c ↦ ⟨u, some j, c.dependencyJobIds, c.runOnFailure⟩ :=
  ⟨fun _ ↦ ⟨rfl, rfl, rfl⟩, fun _ ↦ rfl⟩

/-- The wiring of a callback of a group. -/
theorem rewires_wireNext (u : Nat) (ids : List JobId) :
    Rewires (wireNext u ids) fun c ↦ ⟨some u, c.parentJobId, some ids, c.runOnFailure⟩ :=
  ⟨fun _ ↦ ⟨rfl, rfl, rfl⟩, fun _ ↦ rfl⟩

/-- The wiring of a callback of a chain. -/
theorem rewires_wireAfterChain (u : Nat) (last : Option JobId) (g : Scheduler)
    (previous : Option JobId) (first : Bool) : Rewires (wireAfterChain u last g previous first)
      fun c ↦ ⟨some u, last <|> c.parentJobId, c.dependencyJobIds, c.runOnFailure⟩ :=
  ⟨fun _ ↦ ⟨rfl, rfl, rfl⟩, fun _ ↦ rfl⟩

/-- A loop that rewires. -/
theorem wires_of_rewires {wire : Wire} {F : Scheduler → Option JobId → Bool → Context → Context}
    (h : ∀ g previous first, Rewires (wire g previous first) (F g previous first)) :
    wire.Wires where
  sameLinks g previous first := (h g previous first).sameLinks
  context g previous first d hd := by
    rw [(h g previous first).context, (h g previous first).context, hd]
    rfl

/-- What a loop hands out that treats all objects alike. -/
theorem handed_uniform {wire : Wire} {g : Scheduler} {F : Context → Context}
    {previous : Option JobId} {first : Bool} {roots : List Ref}
    (hwire : ∀ previous first, Rewires (wire g previous first) F)
    (h : Handed wire g st previous first roots) : ∀ x ∈ roots, (st.heap x).context = F {} := by
  induction roots generalizing previous first with
  | nil => exact fun x hx ↦ by cases hx
  | cons r roots ih =>
    intro x hx
    rcases List.mem_cons.mp hx with rfl | hx
    · rw [h.1, (hwire previous first).context]
      rfl
    · exact ih h.2 x hx

/-- on_error callbacks are rewired alike. -/
theorem rewires_onError {wire : Wire} {F : Context → Context} {g : Scheduler}
    {previous : Option JobId} {first : Bool} (h : Rewires (wire g previous first) F) :
    Rewires (wire.onError g previous first) fun c ↦ { F c with runOnFailure := true } where
  sameLinks d := ⟨(h.sameLinks d).cls, (h.sameLinks d).nextDelayables,
    (h.sameLinks d).onErrorDelayables⟩
  context d := by
    rw [← h.context]
    rfl

/-- The two loops over the callbacks of a scheduler. -/
theorem compiles_callbacks {fuel : Nat} {next error : List Ref} {wire : Wire}
    {F : Context → Context}
    {st₁ : Session} {jobs jobs' : List (Option JobId)}
    (h : Visits (delay env fuel) r wire none true (heap r).nextDelayables st jobs st₁)
    (h' : Visits (delay env fuel) r wire.onError none true (heap r).onErrorDelayables st₁ jobs' st')
    (hwire : ∀ g previous first, Rewires (wire g previous first) F)
    (hnextLoop : LoopSpec env heap (heap r).nextDelayables next)
    (herrorLoop : LoopSpec env heap (heap r).onErrorDelayables error)
    (hsub : ∀ x ∈ (heap r).nextDelayables, x ∈ next)
    (hnodup : (r :: (next ++ error)).Nodup) (hunwired : ∀ a ∈ next ++ error, (heap a).context = {})
    (hheap : ∀ a ∈ next ++ error, st.heap a = heap a) (hfree : FreeKeys env st (next ++ error))
    (hnext : 0 < st.store.nextId) :
    Compiles (next ++ error) st st' ∧
      (∀ x ∈ (heap r).nextDelayables, (st'.heap x).context = F {}) ∧
      ∀ x ∈ (heap r).onErrorDelayables,
        (st'.heap x).context = { F {} with runOnFailure := true } := by
  have hwire' (g : Scheduler) (previous : Option JobId) (first : Bool) :
      Rewires (wire.onError g previous first) fun c ↦ { F c with runOnFailure := true } :=
    rewires_onError (hwire g previous first)
  obtain ⟨hself, hnodup⟩ := List.nodup_cons.mp hnodup
  obtain ⟨hnodup₁, hnodup₂, hdisjoint⟩ := List.nodup_append'.mp hnodup
  rw [List.mem_append, not_or] at hself
  obtain ⟨hcomp, hhanded, _⟩ := hnextLoop fuel r _ none true st st₁ jobs hnodup₁
    (fun a ha ↦ hunwired a (List.mem_append_left _ ha)) hself.1 (wires_of_rewires hwire)
    (fun a ha ↦ hheap a (List.mem_append_left _ ha))
    (hfree.subset fun a ↦ List.mem_append_left _) hnext h
  obtain ⟨hcomp', hhanded', _⟩ := herrorLoop fuel r _ none true st₁ st' jobs' hnodup₂
    (fun a ha ↦ hunwired a (List.mem_append_right _ ha)) hself.2 (wires_of_rewires hwire')
    (fun a ha ↦ (hcomp.outside a fun hn ↦ hdisjoint hn ha).trans
      (hheap a (List.mem_append_right _ ha)))
    (hfree.after hcomp.toAdds fun a hn ha ↦ hdisjoint hn ha) hcomp.nextId h'
  refine ⟨hcomp.trans hcomp' fun a hn ha ↦ hdisjoint hn ha, fun x hx ↦ ?_, ?_⟩
  · rw [hcomp'.outside x fun ha ↦ hdisjoint (hsub x hx) ha]
    exact handed_uniform (hwire _) hhanded x hx
  · exact handed_uniform (hwire' _) hhanded'

/-- Every object keeps what it is and links to when a delayable gets its job. -/
theorem kept_of_generated {call : DelayableCall} {properties : DelayableProperties}
    {job : JobId} (hcls : (st.heap r).cls = .delayable call properties none)
    (hheap : st'.heap = Function.update st.heap r
      { st.heap r with cls := .delayable call properties (some job) }) (a : Ref) :
    (st'.heap a).shape = (st.heap a).shape ∧
      (st'.heap a).nextDelayables = (st.heap a).nextDelayables ∧
      (st'.heap a).onErrorDelayables = (st.heap a).onErrorDelayables := by
  rw [hheap]
  by_cases ha : a = r
  · subst ha
    rw [Function.update_self]
    exact ⟨by rw [Scheduler.shape, Scheduler.shape, hcls], rfl, rfl⟩
  · rw [Function.update_of_ne ha]
    exact ⟨rfl, rfl, rfl⟩

/-- `enqueue` of a delayable adds one row, its job's. -/
theorem adds_enqueueDelayable {call : DelayableCall} {properties : DelayableProperties}
    {job : JobId} {row : Job} (hcls : (st.heap r).cls = .delayable call properties none)
    (hcreate : st.store.create row = .ok (st'.store, job))
    (hkey : row.identityKey = storedIdentityKey (properties.identityKey.resolved call))
    (hheap : st'.heap = Function.update st.heap r
      { st.heap r with cls := .delayable call properties (some job) })
    (hnext : 0 < st.store.nextId) : Adds [r] st st' := by
  have hother {a : Ref} (hne : a ≠ r) : st'.heap a = st.heap a := by
    rw [hheap, Function.update_of_ne hne]
  have hown : st'.heap r = { st.heap r with cls := .delayable call properties (some job) } := by
    rw [hheap, Function.update_self]
  obtain ⟨hid, hid'⟩ := Store.create_nextId hcreate
  constructor
  case outside => exact fun a ha ↦ hother fun h ↦ ha (List.mem_singleton.mpr h)
  case shape => exact fun a ↦ (kept_of_generated hcls hheap a).1
  case nextDelayables => exact fun a ↦ (kept_of_generated hcls hheap a).2.1
  case onErrorDelayables => exact fun a ↦ (kept_of_generated hcls hheap a).2.2
  case rows => exact fun i q hq ↦ Store.get?_create_of_some hcreate hq
  case fresh =>
    intro a ha j hj
    rw [List.mem_singleton.mp ha, Session.jobOf, hown] at hj
    obtain rfl := Option.some.inj hj
    refine ⟨hid ▸ hnext, Store.create_fresh hcreate, ?_⟩
    rw [Store.get?_create_self hcreate]
    rfl
  case distinct =>
    intro a ha b hb _ _ _
    rw [List.mem_singleton.mp ha, List.mem_singleton.mp hb]
  case identityKey =>
    intro i q hq
    rcases Store.get?_create_cases hcreate hq with ⟨_, rfl⟩ | hq
    · exact .inr ⟨r, List.mem_singleton_self r, by rw [hkey, Scheduler.identityKey, hcls]⟩
    · exact .inl hq
  case nextId => rw [hid']; exact Nat.succ_pos _

/-- The graph of a delayable: its own, else a new one if it has callbacks. -/
theorem graph_of_jobGraphUuid {d : Scheduler} {u : Option Nat}
    (h : Returns (jobGraphUuid d) st u st') :
    (u = d.graphUuid ∨ d.graphUuid = none ∧ u.isSome = true) ∧
      (d.nextDelayables ≠ [] ∨ d.onErrorDelayables ≠ [] → u.isSome = true) := by
  unfold jobGraphUuid at h
  split at h
  · next hnew =>
    obtain ⟨v, _, rfl⟩ := returns_map.mp h
    exact ⟨.inr ⟨hnew.1, rfl⟩, fun _ ↦ rfl⟩
  · next hold =>
    obtain ⟨rfl, _⟩ := returns_pure.mp h
    refine ⟨.inl rfl, fun hcallbacks ↦ Option.isSome_iff_ne_none.mpr fun hnone ↦ ?_⟩
    exact hold ⟨hnone, hcallbacks⟩

/-- A delayable without a job: its own job first, then the callbacks. -/
theorem nodeSpec_delayable {call : DelayableCall} {properties : DelayableProperties}
    {next error : List Ref} (hmode : env.mustRunWithoutDelay = false)
    (hcls : (heap r).cls = .delayable call properties none)
    (hnextLoop : LoopSpec env heap (heap r).nextDelayables next)
    (herrorLoop : LoopSpec env heap (heap r).onErrorDelayables error)
    (hsub : ∀ x ∈ (heap r).nextDelayables, x ∈ next)
    (hsub' : ∀ x ∈ (heap r).onErrorDelayables, x ∈ error) :
    NodeSpec env heap r (next ++ error) := by
  intro fuel st st' job hnodup hunwired hheap hlinks hfree hnext h
  cases fuel with
  | zero => cases h
  | succ fuel =>
    have hcls' := hlinks.cls.trans hcls
    cases call_of_delay h with
    | known hk => rw [hcls'] at hk; cases hk
    | group hk => rw [hcls'] at hk; cases hk
    | chain hk => rw [hcls'] at hk; cases hk
    | @delayable call properties u j st₁ st₂ st₃ st₄ _ _ _ hk hu henq hN hE hrun =>
      rw [hcls'] at hk
      cases hk
      obtain rfl := eq_of_runWithoutDelay hrun hmode
      have heq := eq_of_jobGraphUuid hu
      have hfree₁ := hfree.of_eq heq
      have hcls₁ : (st₁.heap r).cls = .delayable call properties none := by rw [heq.1, hcls']
      obtain ⟨row, hcreate, hcols, hgraph, hkey, hheap₂⟩ := enqueueDelayable_created henq
        fun k hk ↦ (hfree₁ r List.mem_cons_self k (by rw [Scheduler.identityKey, hcls₁, ← hk])).1
      have hadds := adds_enqueueDelayable hcls₁ hcreate hkey hheap₂ (heq.2 ▸ hnext)
      obtain ⟨hr, hnodup'⟩ := List.nodup_cons.mp hnodup
      have hdisjoint : ∀ a ∈ [r], a ∉ next ++ error := fun a ha ↦ by rwa [List.mem_singleton.mp ha]
      rw [hlinks.nextDelayables] at hN
      rw [hlinks.onErrorDelayables] at hE
      have hheap' : ∀ a ∈ next ++ error, st₂.heap a = heap a := fun a ha ↦ by
        rw [hadds.outside a fun h ↦ hdisjoint a h ha, heq.1, hheap a ha]
      obtain ⟨hcomp, hnexts, herrors⟩ := compiles_callbacks hN hE (rewires_wireCallback u j)
        hnextLoop herrorLoop hsub
        hnodup hunwired hheap' (hfree₁.after hadds hdisjoint) hadds.nextId
      have hown : st'.heap r =
          { st₁.heap r with cls := .delayable call properties (some j) } := by
        rw [hcomp.outside r hr, hheap₂, Function.update_self]
      have hnextEq : (st₁.heap r).nextDelayables = (heap r).nextDelayables := by
        rw [heq.1, hlinks.nextDelayables]
      have herrorEq : (st₁.heap r).onErrorDelayables = (heap r).onErrorDelayables := by
        rw [heq.1, hlinks.onErrorDelayables]
      obtain ⟨hu₁, hu₂⟩ := graph_of_jobGraphUuid hu
      rw [← heq.1] at hu₁ hu₂
      have hwired : st'.Wired r := by
        unfold Session.Wired Session.CallbacksWired
        rw [hown]
        refine ⟨j, row, rfl, hcomp.rows j row ?_, hcols, hgraph ▸ hu₁, hgraph ▸ hu₂, ?_, ?_⟩
        · exact Store.get?_create_self hcreate
        · rw [hgraph]
          exact fun x hx ↦ hnexts x (hnextEq ▸ hx)
        · rw [hgraph]
          exact fun x hx ↦ herrors x (herrorEq ▸ hx)
      have hsubs : ∀ x ∈ (st₂.heap r).links, x ∈ next ++ error := by
        rw [Scheduler.links, hheap₂, Function.update_self]
        intro x hx
        rcases List.mem_append.mp hx with hx | hx
        · exact List.mem_append_left _ (hsub x (hnextEq ▸ hx))
        · exact List.mem_append_right _ (hsub' x (herrorEq ▸ hx))
      refine ⟨(Compiles.cons hadds hcomp hr hsubs hwired).of_eq heq, ?_, ?_⟩
      · rw [hown, ← heq.1]
        rfl
      · rw [Session.jobOf, hown]

/-- The graph of a group or chain: its own, if it has one. -/
theorem graph_of_graphUuidOf {u : Nat} (h : Returns (graphUuidOf r) st u st') (v : Nat)
    (hv : (st.heap r).graphUuid = some v) : v = u := by
  obtain ⟨d, st₁, hd, hu⟩ := returns_bind.mp h
  obtain ⟨rfl, rfl⟩ := eq_of_read hd
  rw [hv] at hu
  exact (returns_pure.mp hu).1

/-- A scheduler without a job above its tree. -/
theorem compiles_compound {refs : List Ref} {st₁ : Session}
    (heq : st₁.heap = st.heap ∧ st₁.store = st.store) (hcomp : Compiles refs st₁ st')
    (hr : r ∉ refs) (hlinks : (heap r).SameLinks (st.heap r))
    (hclosed : ∀ x ∈ (heap r).links, x ∈ refs) (hjob : st.jobOf r = none) (hwired : st'.Wired r)
    (hnext : 0 < st.store.nextId) :
    Compiles (r :: refs) st st' ∧ (st'.heap r).context = (st.heap r).context ∧
      none = st'.jobOf r := by
  have hown : st'.heap r = st.heap r := (hcomp.outside r hr).trans (congrFun heq.1 r)
  have hlinks' : (st.heap r).links = (heap r).links := by
    rw [Scheduler.links, Scheduler.links, hlinks.cls, hlinks.nextDelayables,
      hlinks.onErrorDelayables]
  refine ⟨.cons ⟨fun _ _ ↦ rfl, fun _ ↦ rfl, fun _ ↦ rfl, fun _ ↦ rfl, fun _ _ ↦ id,
    fun a ha j hj ↦ ?_, fun a ha b hb _ _ _ ↦ ?_, fun _ _ ↦ .inl, hnext⟩ (hcomp.of_eq heq) hr
    (hlinks' ▸ hclosed) hwired, by rw [hown], ?_⟩
  · rw [List.mem_singleton.mp ha, hjob] at hj
    cases hj
  · rw [List.mem_singleton.mp ha, List.mem_singleton.mp hb]
  · rw [jobOf_congr hown, hjob]

section Compound

variable {fuel : Nat} {wire wire' : Wire} {jobs jobs' jobs'' : List (Option JobId)}
  {delayables members next error : List Ref} {st₁ st₂ st₃ : Session} {F : Context → Context}

/-- The loop over members or steps, and the loops over the callbacks behind it. -/
theorem compiles_loops (h : Visits (delay env fuel) r wire none true delayables st₁ jobs st₂)
    (hN : Visits (delay env fuel) r wire' none true (st₂.heap r).nextDelayables st₂ jobs' st₃)
    (hE : Visits (delay env fuel) r wire'.onError none true (st₂.heap r).onErrorDelayables
      st₃ jobs'' st')
    (hwires : wire.Wires) (hwire' : ∀ g previous first, Rewires (wire' g previous first) F)
    (hloop : LoopSpec env heap delayables members)
    (hnextLoop : LoopSpec env heap (heap r).nextDelayables next)
    (herrorLoop : LoopSpec env heap (heap r).onErrorDelayables error)
    (hsub : ∀ x ∈ delayables, x ∈ members) (hsubNext : ∀ x ∈ (heap r).nextDelayables, x ∈ next)
    (hnodup : (r :: (members ++ (next ++ error))).Nodup)
    (hunwired : ∀ a ∈ members ++ (next ++ error), (heap a).context = {})
    (hheap : ∀ a ∈ members ++ (next ++ error), st₁.heap a = heap a)
    (hlinks : (heap r).SameLinks (st₁.heap r))
    (hfree : FreeKeys env st₁ (members ++ (next ++ error))) (hnext : 0 < st₁.store.nextId) :
    Compiles (members ++ (next ++ error)) st₁ st' ∧
      Handed wire (st₁.heap r) st' none true delayables ∧ jobs = delayables.map st'.jobOf ∧
      (∀ x ∈ (heap r).nextDelayables, (st'.heap x).context = F {}) ∧
      ∀ x ∈ (heap r).onErrorDelayables,
        (st'.heap x).context = { F {} with runOnFailure := true } := by
  obtain ⟨hr, hnodup⟩ := List.nodup_cons.mp hnodup
  obtain ⟨hnodup₁, hnodup₂, hdisjoint⟩ := List.nodup_append'.mp hnodup
  rw [List.mem_append, not_or] at hr
  obtain ⟨hcomp, hhanded, rfl⟩ := hloop fuel r wire none true st₁ st₂ jobs hnodup₁
    (fun a ha ↦ hunwired a (List.mem_append_left _ ha)) hr.1 hwires
    (fun a ha ↦ hheap a (List.mem_append_left _ ha))
    (hfree.subset fun a ↦ List.mem_append_left _) hnext h
  have hself : st₂.heap r = st₁.heap r := hcomp.outside r hr.1
  rw [hself, hlinks.nextDelayables] at hN
  rw [hself, hlinks.onErrorDelayables] at hE
  obtain ⟨hcomp', hnexts, herrors⟩ := compiles_callbacks hN hE hwire' hnextLoop herrorLoop
    hsubNext (List.nodup_cons.mpr ⟨hr.2, hnodup₂⟩)
    (fun a ha ↦ hunwired a (List.mem_append_right _ ha))
    (fun a ha ↦ (hcomp.outside a fun hm ↦ hdisjoint hm ha).trans
      (hheap a (List.mem_append_right _ ha)))
    (hfree.after hcomp.toAdds fun a hm ha ↦ hdisjoint hm ha) hcomp.nextId
  have hkept : ∀ x ∈ delayables, st'.heap x = st₂.heap x := fun x hx ↦
    hcomp'.outside x fun ha ↦ hdisjoint (hsub x hx) ha
  refine ⟨hcomp.trans hcomp' fun a hm ha ↦ hdisjoint hm ha, handed_congr hkept hhanded, ?_, hnexts,
    herrors⟩
  exact List.map_congr_left fun x hx ↦ (jobOf_congr (hkept x hx)).symm

/-- The jobs that the members of a group return. -/
theorem filterMap_of_map_some {f : Ref → Option JobId} {ids : List JobId}
    (h : ids.map some = delayables.map f) : delayables.filterMap f = ids := by
  have hmap := congrArg (List.filterMap id) h
  rw [List.filterMap_map, List.filterMap_map] at hmap
  exact hmap.symm.trans List.filterMap_some

/-- The job that the last step of a chain returns. -/
theorem last_of_map {f : Ref → Option JobId} :
    (delayables.map f).getLast?.getD none = delayables.getLast?.bind f := by
  rw [List.getLast?_map]
  cases delayables.getLast? <;> rfl

/-- A group: the members first, then the callbacks. -/
theorem nodeSpec_group (hcls : (heap r).cls = .group delayables)
    (hloop : LoopSpec env heap delayables members)
    (hnextLoop : LoopSpec env heap (heap r).nextDelayables next)
    (herrorLoop : LoopSpec env heap (heap r).onErrorDelayables error)
    (hsub : ∀ x ∈ delayables, x ∈ members) (hsubNext : ∀ x ∈ (heap r).nextDelayables, x ∈ next)
    (hsubError : ∀ x ∈ (heap r).onErrorDelayables, x ∈ error) :
    NodeSpec env heap r (members ++ (next ++ error)) := by
  intro fuel st st' job hnodup hunwired hheap hlinks hfree hnext h
  cases fuel with
  | zero => cases h
  | succ fuel =>
    have hcls' := hlinks.cls.trans hcls
    cases call_of_delay h with
    | known hk => rw [hcls'] at hk; cases hk
    | delayable hk => rw [hcls'] at hk; cases hk
    | chain hk => rw [hcls'] at hk; cases hk
    | @group _ u ids st₁ st₂ st₃ _ _ _ hk hu hm hN hE =>
      rw [hcls'] at hk
      cases hk
      have heq := eq_of_graphUuidOf hu
      have hcls₁ : (st₁.heap r).cls = .group delayables := by rw [heq.1, hcls']
      obtain ⟨hcomp, hhanded, hjobs, hnexts, herrors⟩ := compiles_loops hm hN hE
        (wires_of_rewires fun g _ _ ↦ rewires_wireMember u g)
        (fun _ _ _ ↦ rewires_wireNext u ids) hloop hnextLoop herrorLoop hsub hsubNext hnodup
        hunwired
        (fun a ha ↦ (congrFun heq.1 a).trans (hheap a ha)) (heq.1 ▸ hlinks)
        ((hfree.subset fun a ↦ List.mem_cons_of_mem _).of_eq heq) (heq.2 ▸ hnext)
      have hr := (List.nodup_cons.mp hnodup).1
      have hown : st'.heap r = st₁.heap r := hcomp.outside r hr
      have hcallbacks : st'.CallbacksWired r
          ⟨some u, none, some (delayables.filterMap st'.jobOf), false⟩ := by
        unfold Session.CallbacksWired
        rw [hown, heq.1, hlinks.nextDelayables, hlinks.onErrorDelayables,
          filterMap_of_map_some hjobs]
        exact ⟨hnexts, herrors⟩
      have hwired : st'.Wired r := by
        unfold Session.Wired
        rw [hown, hcls₁]
        refine ⟨u, fun v hv ↦ graph_of_graphUuidOf hu v (heq.1 ▸ hv), fun d hd ↦ ?_, hcallbacks⟩
        rw [handed_uniform (fun _ _ ↦ rewires_wireMember u _) hhanded d hd]
        simp [Scheduler.context]
      refine compiles_compound heq hcomp hr hlinks (fun x hx ↦ ?_) ?_ hwired hnext
      · rw [Scheduler.links, hcls] at hx
        simp only [List.mem_append] at hx ⊢
        exact hx.imp (hsub x) (Or.imp (hsubNext x) (hsubError x))
      · rw [Session.jobOf, hcls']

/-- A chain: the steps first, then the callbacks. -/
theorem nodeSpec_chain (hcls : (heap r).cls = .chain delayables)
    (hloop : LoopSpec env heap delayables members)
    (hnextLoop : LoopSpec env heap (heap r).nextDelayables next)
    (herrorLoop : LoopSpec env heap (heap r).onErrorDelayables error)
    (hsub : ∀ x ∈ delayables, x ∈ members) (hsubNext : ∀ x ∈ (heap r).nextDelayables, x ∈ next)
    (hsubError : ∀ x ∈ (heap r).onErrorDelayables, x ∈ error) :
    NodeSpec env heap r (members ++ (next ++ error)) := by
  intro fuel st st' job hnodup hunwired hheap hlinks hfree hnext h
  cases fuel with
  | zero => cases h
  | succ fuel =>
    have hcls' := hlinks.cls.trans hcls
    cases call_of_delay h with
    | known hk => rw [hcls'] at hk; cases hk
    | delayable hk => rw [hcls'] at hk; cases hk
    | group hk => rw [hcls'] at hk; cases hk
    | @chain _ u st₁ st₂ st₃ _ steps _ _ hk hu hm hN hE =>
      rw [hcls'] at hk
      cases hk
      have heq := eq_of_graphUuidOf hu
      have hcls₁ : (st₁.heap r).cls = .chain delayables := by rw [heq.1, hcls']
      obtain ⟨hcomp, hhanded, hjobs, hnexts, herrors⟩ := compiles_loops hm hN hE
        (wires_of_rewires fun g previous first ↦ rewires_wireStep u previous first g)
        (rewires_wireAfterChain u (steps.getLast?.getD none)) hloop hnextLoop herrorLoop hsub
        hsubNext hnodup hunwired
        (fun a ha ↦ (congrFun heq.1 a).trans (hheap a ha)) (heq.1 ▸ hlinks)
        ((hfree.subset fun a ↦ List.mem_cons_of_mem _).of_eq heq) (heq.2 ▸ hnext)
      have hr := (List.nodup_cons.mp hnodup).1
      have hown : st'.heap r = st₁.heap r := hcomp.outside r hr
      have hprevious : delayables.getLast?.bind st'.jobOf = steps.getLast?.getD none := by
        rw [hjobs, last_of_map]
      have hcallbacks : st'.CallbacksWired r
          ⟨some u, delayables.getLast?.bind st'.jobOf, none, false⟩ := by
        unfold Session.CallbacksWired
        rw [hown, heq.1, hlinks.nextDelayables, hlinks.onErrorDelayables, hprevious]
        refine ⟨fun x hx ↦ (hnexts x hx).trans ?_, fun x hx ↦ (herrors x hx).trans ?_⟩ <;>
          cases steps.getLast?.getD none <;> rfl
      have hwired : st'.Wired r := by
        unfold Session.Wired
        rw [hown, hcls₁]
        exact ⟨u, fun v hv ↦ graph_of_graphUuidOf hu v (heq.1 ▸ hv), hhanded, hcallbacks⟩
      refine compiles_compound heq hcomp hr hlinks (fun x hx ↦ ?_) ?_ hwired hnext
      · rw [Scheduler.links, hcls] at hx
        simp only [List.mem_append] at hx ⊢
        exact hx.imp (hsub x) (Or.imp (hsubNext x) (hsubError x))
      · rw [Session.jobOf, hcls']

end Compound

end Node

/-! ### Trees -/

/-- Every forest is compiled, by induction over it. -/
theorem loopSpec_of_forest {env : DelayEnv} {heap : Ref → Scheduler} {roots refs : List Ref}
    (hmode : env.mustRunWithoutDelay = false) (h : Forest heap roots refs) :
    LoopSpec env heap roots refs := by
  induction h with
  | nil => exact loopSpec_nil
  | delayable hcls hnext herror _ ihNext ihError ih =>
    exact loopSpec_cons (nodeSpec_delayable hmode hcls ihNext ihError
      (fun _ ↦ hnext.mem_of_mem_roots) fun _ ↦ herror.mem_of_mem_roots) ih
  | compound hcls _ hmembers hnext herror _ ihMembers ihNext ihError ih =>
    refine loopSpec_cons ?_ ih
    rcases hcls with hcls | hcls
    · exact nodeSpec_group hcls ihMembers ihNext ihError (fun _ ↦ hmembers.mem_of_mem_roots)
        (fun _ ↦ hnext.mem_of_mem_roots) fun _ ↦ herror.mem_of_mem_roots
    · exact nodeSpec_chain hcls ihMembers ihNext ihError (fun _ ↦ hmembers.mem_of_mem_roots)
        (fun _ ↦ hnext.mem_of_mem_roots) fun _ ↦ herror.mem_of_mem_roots

section Tree

variable {env : DelayEnv} {st st' : Session} {root : Ref} {refs : List Ref} {fuel : Nat}
  {job : Option JobId}

/-- `delay` of the root of a tree that nobody has wired. -/
theorem compiles_of_delay (hmode : env.mustRunWithoutDelay = false)
    (hforest : Forest st.heap [root] refs) (hnodup : refs.Nodup)
    (hunwired : ∀ a ∈ refs, (st.heap a).context = {}) (hfree : FreeKeys env st refs)
    (hnext : 0 < st.store.nextId) (h : Returns (delay env fuel root) st job st') :
    Compiles refs st st' ∧ (st'.heap root).context = {} ∧ job = st'.jobOf root := by
  obtain ⟨self, hself⟩ := Infinite.exists_notMem_finset refs.toFinset
  rw [List.mem_toFinset] at hself
  have hassign : Returns (assign root fun d ↦ d) st () st := by
    unfold Returns assign
    rw [Function.update_eq_self]
    rfl
  have hwires : Wire.Wires fun _ _ _ d ↦ d := ⟨fun _ _ _ _ ↦ ⟨rfl, rfl, rfl⟩, fun _ _ _ _ h ↦ h⟩
  obtain ⟨hcomp, hhanded, hjobs⟩ := loopSpec_of_forest hmode hforest fuel self _ none true st st'
    [job] hnodup hunwired hself hwires (fun _ _ ↦ rfl) hfree hnext (.cons hassign h .nil)
  exact ⟨hcomp, hhanded.1, List.head_eq_of_cons_eq hjobs⟩

end Tree

end JobWorker
