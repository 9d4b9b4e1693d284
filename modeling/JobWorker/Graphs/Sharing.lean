import JobWorker.Graphs.Order

/-!
# Schedulers that are shared

`delay` over objects that refer to each other freely. A delayable is enqueued by the call
that reaches it first, and every later call returns the job that it has
(`job_worker/delay.py:120–122`); groups and chains are visited again by every call.
-/

namespace JobWorker

open Delaying

/-- Ids start at 1. -/
def Store.PositiveIds (s : Store) : Prop := 0 < s.nextId ∧ s.get? 0 = none

namespace Session

/-- From `st` to `st'` objects are what they were and keep their jobs, new jobs are active,
and every row is old or the job of a delayable that had none. -/
structure Extends (st st' : Session) : Prop where
  shape : ∀ a, (st'.heap a).shape = (st.heap a).shape
  nextDelayables : ∀ a, (st'.heap a).nextDelayables = (st.heap a).nextDelayables
  onErrorDelayables : ∀ a, (st'.heap a).onErrorDelayables = (st.heap a).onErrorDelayables
  jobs : ∀ a j, st.jobOf a = some j → st'.jobOf a = some j
  active : ∀ a j, st.jobOf a = none → st'.jobOf a = some j →
    ∃ row, st'.store.get? j = some row ∧ row.state.isActive = true
  rows : ∀ i row, st.store.get? i = some row → st'.store.get? i = some row
  newRows : ∀ i row, st'.store.get? i = some row → st.store.get? i = some row ∨
    ∃ a, st.jobOf a = none ∧ st'.jobOf a = some i
  known : st.Known → st'.Known
  positiveIds : st.store.PositiveIds → st'.store.PositiveIds

/-- A scheduler that has been delayed: a delayable has its job, and a group or chain has
delayed all that it links to. -/
inductive Covered (st : Session) : Ref → Prop
  | delayable {x : Ref} {j : JobId} : st.jobOf x = some j → Covered st x
  | compound {x : Ref} {delayables : List Ref} : (st.heap x).Comprises delayables →
      (∀ z ∈ (st.heap x).links, Covered st z) → Covered st x

/-- Behind the delayables that have got their jobs everything has been delayed. -/
def Spreads (st st' : Session) : Prop :=
  ∀ y, st.jobOf y = none → (st'.jobOf y).isSome = true →
    ∀ z ∈ (st.heap y).links, st'.Covered z

/-- What the calls of `delay` for `roots` do that return `jobs`. -/
structure Settles (roots : List Ref) (jobs : List (Option JobId)) (st st' : Session) : Prop where
  keeps : st.Extends st'
  spreads : st.Spreads st'
  covered : ∀ r ∈ roots, st'.Covered r
  jobs : jobs = roots.map st'.jobOf

section Growth

variable {st st₁ st' : Session} {a x : Ref} {delayables : List Ref}

/-- A group or chain has no job. -/
theorem jobOf_of_comprises (h : (st.heap x).Comprises delayables) : st.jobOf x = none := by
  unfold jobOf
  rcases h with h | h <;> rw [h]

/-- Links stay. -/
theorem Extends.links (h : st.Extends st') (a : Ref) :
    (st'.heap a).links = (st.heap a).links :=
  links_of_shape (h.shape a) (h.nextDelayables a) (h.onErrorDelayables a)

/-- Nothing changes. -/
theorem Extends.refl (st : Session) : st.Extends st where
  shape _ := rfl
  nextDelayables _ := rfl
  onErrorDelayables _ := rfl
  jobs _ _ := id
  active _ _ hnone hj := by cases hnone.symm.trans hj
  rows _ _ := id
  newRows _ _ := .inl
  known := id
  positiveIds := id

/-- One call after the other. -/
theorem Extends.trans (h : st.Extends st₁) (h' : st₁.Extends st') : st.Extends st' where
  shape a := (h'.shape a).trans (h.shape a)
  nextDelayables a := (h'.nextDelayables a).trans (h.nextDelayables a)
  onErrorDelayables a := (h'.onErrorDelayables a).trans (h.onErrorDelayables a)
  jobs a j hj := h'.jobs a j (h.jobs a j hj)
  active a j hnone hj := by
    cases hj₁ : st₁.jobOf a with
    | none => exact h'.active a j hj₁ hj
    | some i =>
      obtain rfl := Option.some.inj ((h'.jobs a i hj₁).symm.trans hj)
      obtain ⟨row, hrow, hactive⟩ := h.active a i hnone hj₁
      exact ⟨row, h'.rows i row hrow, hactive⟩
  rows i row hr := h'.rows i row (h.rows i row hr)
  newRows i row hr := by
    rcases h'.newRows i row hr with hr | ⟨a, hnone, hj⟩
    · rcases h.newRows i row hr with hr | ⟨a, hnone, hj⟩
      · exact .inl hr
      · exact .inr ⟨a, hnone, h'.jobs a i hj⟩
    · refine .inr ⟨a, ?_, hj⟩
      by_contra hn
      obtain ⟨j, hj⟩ := Option.ne_none_iff_exists'.mp hn
      rw [h.jobs a j hj] at hnone
      cases hnone
  known hk := h'.known (h.known hk)
  positiveIds hp := h'.positiveIds (h.positiveIds hp)

/-- A new row is new from any earlier session. -/
theorem Extends.get?_eq_none (h : st.Extends st') {i : JobId} (hi : st'.store.get? i = none) :
    st.store.get? i = none := by
  by_contra hn
  obtain ⟨row, hrow⟩ := Option.ne_none_iff_exists'.mp hn
  rw [h.rows i row hrow] at hi
  cases hi

/-- What has been delayed stays so. -/
theorem Covered.mono (h : st.Extends st') (hx : st.Covered x) : st'.Covered x := by
  induction hx with
  | delayable hj => exact .delayable (h.jobs _ _ hj)
  | @compound x delayables hcls _ ih =>
    refine .compound ((comprises_of_shape (h.shape x) delayables).mpr hcls) fun z hz ↦ ?_
    exact ih z (h.links x ▸ hz)

/-- The job of a delayed object is final. -/
theorem Extends.jobOf_eq (h : st.Extends st') (hx : st.Covered x) :
    st'.jobOf x = st.jobOf x := by
  cases hx with
  | delayable hj => rw [hj, h.jobs _ _ hj]
  | compound hcls =>
    rw [jobOf_of_comprises hcls,
      jobOf_of_comprises ((comprises_of_shape (h.shape x) _).mpr hcls)]

/-- Nothing is delayed. -/
theorem Settles.of_extends (h : st.Extends st') (hjobs : ∀ a, st'.jobOf a = st.jobOf a) :
    Settles [] [] st st' where
  keeps := h
  spreads y hnone hsome := by
    rw [hjobs, hnone] at hsome
    cases hsome
  covered _ hr := by cases hr
  jobs := rfl

/-- One call after the other. -/
theorem Settles.append {roots roots' : List Ref} {jobs jobs' : List (Option JobId)}
    (h : Settles roots jobs st st₁) (h' : Settles roots' jobs' st₁ st') :
    Settles (roots ++ roots') (jobs ++ jobs') st st' where
  keeps := h.keeps.trans h'.keeps
  spreads y hnone hsome z hz := by
    cases hy : st₁.jobOf y with
    | none => exact h'.spreads y hy hsome z (h.keeps.links y ▸ hz)
    | some j =>
      exact (h.spreads y hnone (by rw [hy]; rfl) z hz).mono h'.keeps
  covered r hr := by
    rcases List.mem_append.mp hr with hr | hr
    · exact (h.covered r hr).mono h'.keeps
    · exact h'.covered r hr
  jobs := by
    rw [h.jobs, h'.jobs, List.map_append]
    congr 1
    exact List.map_congr_left fun r hr ↦ (h'.keeps.jobOf_eq (h.covered r hr)).symm

end Growth
end Session

namespace Delaying

open Session

section Steps

variable {env : DelayEnv} {st st' : Session} {r x : Ref}

/-- Wiring an object. -/
theorem settles_wire {d : Scheduler} (hwire : (st.heap r).SameLinks d) :
    Settles [] [] st { st with heap := Function.update st.heap r d } := by
  have hlinks := hwire.update
  have hjobs (a : Ref) :
      jobOf { st with heap := Function.update st.heap r d } a = st.jobOf a := by
    rw [jobOf, jobOf, (hlinks a).cls]
  refine .of_extends ⟨fun a ↦ ?_, fun a ↦ (hlinks a).nextDelayables,
    fun a ↦ (hlinks a).onErrorDelayables, fun a j hj ↦ by rw [hjobs, hj],
    fun a j hnone hj ↦ ?_, fun _ _ ↦ id, fun _ _ ↦ .inl,
    fun hk a call properties j ha ↦ ?_, id⟩ hjobs
  · rw [Scheduler.shape, Scheduler.shape, (hlinks a).cls]
  · rw [hjobs, hnone] at hj
    cases hj
  · exact hk a call properties j ((hlinks a).cls ▸ ha)

/-- A new uuid. -/
theorem settles_of_eq (h : st'.heap = st.heap ∧ st'.store = st.store) :
    Settles [] [] st st' := by
  have hjobs (a : Ref) : st'.jobOf a = st.jobOf a := by rw [jobOf, jobOf, h.1]
  refine .of_extends ⟨fun a ↦ by rw [h.1], fun a ↦ by rw [h.1], fun a ↦ by rw [h.1],
    fun a j hj ↦ by rw [hjobs, hj], fun a j hnone hj ↦ ?_, fun i row hr ↦ by rw [h.2, hr],
    fun i row hr ↦ .inl (h.2 ▸ hr), (grows_of_eq h).known, fun hp ↦ by rwa [h.2]⟩ hjobs
  rw [hjobs, hnone] at hj
  cases hj

/-- `enqueue` of a delayable that has no job. -/
theorem extends_enqueueDelayable {call : DelayableCall} {properties : DelayableProperties}
    {u : Option Nat} {j : JobId} (hcls : (st.heap x).cls = .delayable call properties none)
    (h : Returns (enqueueDelayable env x call properties u) st j st') :
    st.Extends st' ∧ st'.jobOf x = some j ∧ ∀ a, a ≠ x → st'.heap a = st.heap a := by
  obtain ⟨args, s, henq, _, rfl, hheap⟩ := enqueueDelayable_enqueue h
  have hother {a : Ref} (hne : a ≠ x) : st'.heap a = st.heap a := by
    rw [hheap, Function.update_of_ne hne]
  have hown : st'.heap x = { st.heap x with cls := .delayable call properties (some j) } := by
    rw [hheap, Function.update_self]
  have hnone : st.jobOf x = none := by rw [jobOf, hcls]
  have hjob : st'.jobOf x = some j := by rw [jobOf, hown]
  have hrows : (∀ i row, st.store.get? i = some row → st'.store.get? i = some row) ∧
      (∀ i row, st'.store.get? i = some row → st.store.get? i = some row ∨ i = j) ∧
      (st.store.PositiveIds → st'.store.PositiveIds) ∧
      ∃ row, st'.store.get? j = some row ∧ row.state.isActive = true := by
    rcases enqueue_cases henq with ⟨heq, hfound⟩ | ⟨eta, _, _, hcreate⟩
    · obtain ⟨k, _, hfind⟩ := Option.bind_eq_some_iff.mp hfound
      obtain ⟨row, hrow, _, _, hactive⟩ := activeWith_of_findByIdentityKey hfind
      rw [heq]
      exact ⟨fun _ _ ↦ id, fun _ _ ↦ .inl, id, row, hrow, hactive⟩
    · obtain ⟨hid, hid'⟩ := Store.create_nextId hcreate
      refine ⟨fun i row hr ↦ Store.get?_create_of_some hcreate hr, fun i row hr ↦ ?_,
        fun hp ↦ ⟨hid' ▸ Nat.succ_pos _, ?_⟩, _, Store.get?_create_self hcreate,
        isActive_enqueueVals _ _ _ _⟩
      · exact (Store.get?_create_cases hcreate hr).symm.imp_right And.left
      · rw [Store.get?_create hcreate, if_neg, hp.2]
        exact hid ▸ hp.1.ne
  obtain ⟨hold, hnew, hpositive, hactive⟩ := hrows
  have hkept := kept_of_generated hcls hheap
  refine ⟨⟨fun a ↦ (hkept a).1, fun a ↦ (hkept a).2.1, fun a ↦ (hkept a).2.2,
    fun a i hi ↦ ?_, fun a i ha hi ↦ ?_, hold, fun i row hr ↦ ?_,
    (enqueueDelayable_spec h).1.known, hpositive⟩, hjob, fun a ↦ hother⟩
  · by_cases ha : a = x
    · rw [ha, hnone] at hi
      cases hi
    · rwa [jobOf, hother ha]
  · by_cases hax : a = x
    · rw [hax, hjob] at hi
      cases hi
      exact hactive
    · rw [jobOf_congr (hother hax), ha] at hi
      cases hi
  · rcases hnew i row hr with hr | rfl
    · exact .inl hr
    · exact .inr ⟨x, hnone, hjob⟩

/-- A loop of calls. -/
theorem settles_of_visits {fuel : Nat} {self : Ref} {wire : Wire} {previous : Option JobId}
    {first : Bool} {roots : List Ref} {jobs : List (Option JobId)}
    (hcall : ∀ x st job st', Returns (delay env fuel x) st job st' → Settles [x] [job] st st')
    (h : Visits (delay env fuel) self wire previous first roots st jobs st')
    (hwire : ∀ g previous first (d : Scheduler), d.SameLinks (wire g previous first d)) :
    Settles roots jobs st st' := by
  induction h with
  | nil => exact .of_extends (.refl _) fun _ ↦ rfl
  | cons ha hdelay _ ih =>
    cases ha
    exact ((settles_wire (hwire _ _ _ _)).append (hcall _ _ _ _ hdelay)).append ih

/-- The two loops over callbacks. -/
theorem settles_callbacks {fuel : Nat} {wire : Wire} {next error : List Ref}
    {jobs jobs' : List (Option JobId)} {st₁ : Session}
    (hcall : ∀ x st job st', Returns (delay env fuel x) st job st' → Settles [x] [job] st st')
    (hnext : Visits (delay env fuel) x wire none true next st jobs st₁)
    (herror : Visits (delay env fuel) x wire.onError none true error st₁ jobs' st')
    (hwire : ∀ g previous first (d : Scheduler), d.SameLinks (wire g previous first d)) :
    Settles (next ++ error) (jobs ++ jobs') st st' := by
  refine (settles_of_visits hcall hnext hwire).append (settles_of_visits hcall herror ?_)
  intro g previous first d
  obtain ⟨hcls, hnext, herror⟩ := hwire g previous first d
  exact ⟨hcls, hnext, herror⟩

/-- A group or chain has delayed all that it links to. -/
theorem settles_compound {delayables : List Ref} {jobs jobs' : List (Option JobId)}
    {st₁ st₂ : Session} (hcls : (st.heap x).Comprises delayables)
    (heq : st₁.heap = st.heap ∧ st₁.store = st.store)
    (hmembers : Settles delayables jobs st₁ st₂)
    (hcallbacks : Settles ((st₂.heap x).nextDelayables ++ (st₂.heap x).onErrorDelayables) jobs'
      st₂ st') : Settles [x] [none] st st' := by
  have hall := (settles_of_eq heq).append (hmembers.append hcallbacks)
  have hkeep := (settles_of_eq heq).append hmembers
  have hcls' := (comprises_of_shape (hall.keeps.shape x) delayables).mpr hcls
  refine ⟨hall.keeps, hall.spreads, fun r hr ↦ ?_, ?_⟩
  · rw [List.mem_singleton.mp hr]
    refine .compound hcls' fun z hz ↦ hall.covered z ?_
    rw [hall.keeps.links] at hz
    rw [hkeep.keeps.nextDelayables, hkeep.keeps.onErrorDelayables]
    unfold Scheduler.links at hz
    rcases hcls with hcls | hcls <;> rw [hcls] at hz <;> exact hz
  · rw [List.map_singleton, jobOf_of_comprises hcls']

/-- Every call of `delay` that returns has delayed its scheduler and what that reaches. -/
theorem settles_of_delay (hmode : env.mustRunWithoutDelay = false) {fuel : Nat}
    {job : Option JobId} (h : Returns (delay env fuel x) st job st') :
    Settles [x] [job] st st' := by
  induction fuel generalizing x st job st' with
  | zero => cases h
  | succ fuel ih =>
    have hcall : ∀ x st job st', Returns (delay env fuel x) st job st' →
        Settles [x] [job] st st' := fun _ _ _ _ ↦ ih
    cases call_of_delay h with
    | @known _ _ j hcls =>
      have hjob : st.jobOf x = some j := by rw [jobOf, hcls]
      refine ⟨.refl st, fun y hnone hsome ↦ ?_, fun r hr ↦ ?_, ?_⟩
      · rw [hnone] at hsome
        cases hsome
      · exact List.mem_singleton.mp hr ▸ .delayable hjob
      · rw [List.map_singleton, hjob]
    | @delayable _ _ u j st₁ st₂ st₃ st₄ _ jobs jobs' hcls hu henq hnext herror hrun =>
      obtain rfl := eq_of_runWithoutDelay hrun hmode
      have heq := eq_of_jobGraphUuid hu
      have hstart := settles_of_eq heq
      obtain ⟨hkeeps, hjob, hother⟩ := extends_enqueueDelayable (heq.1 ▸ hcls) henq
      have hloops := settles_callbacks hcall hnext herror fun _ _ _ _ ↦ ⟨rfl, rfl, rfl⟩
      have hjob' := hloops.keeps.jobs x j hjob
      refine ⟨hstart.keeps.trans (hkeeps.trans hloops.keeps), fun y hnone hsome z hz ↦ ?_,
        fun r hr ↦ List.mem_singleton.mp hr ▸ .delayable hjob', ?_⟩
      · by_cases hy : y = x
        · -- The callbacks of the delayable itself are what the two loops visit.
          refine hloops.covered z ?_
          rwa [hy, Scheduler.links, hcls] at hz
        · have hz' : z ∈ (st₂.heap y).links := by rwa [hother y hy, heq.1]
          refine hloops.spreads y ?_ hsome z hz'
          rw [jobOf_congr (hother y hy), jobOf_congr (congrFun heq.1 y), hnone]
      · rw [List.map_singleton, hjob']
    | group hcls hu hmembers hnext herror =>
      exact settles_compound (.inl hcls) (eq_of_graphUuidOf hu)
        (settles_of_visits hcall hmembers fun _ _ _ _ ↦ ⟨rfl, rfl, rfl⟩)
        (settles_callbacks hcall hnext herror fun _ _ _ _ ↦ ⟨rfl, rfl, rfl⟩)
    | chain hcls hu hsteps hnext herror =>
      exact settles_compound (.inr hcls) (eq_of_graphUuidOf hu)
        (settles_of_visits hcall hsteps fun _ _ _ _ ↦ ⟨rfl, rfl, rfl⟩)
        (settles_callbacks hcall hnext herror fun _ _ _ _ ↦ ⟨rfl, rfl, rfl⟩)

end Steps
end Delaying
end JobWorker
