import JobWorker.Delay
import JobWorker.Transactions

/-!
# What a call of delay does to the job table

`delay` adds rows and removes none, and every generated job of a `Delayable` keeps its row.
Which job a `Delayable` gets is decided before its call: the one it has generated, the
active one that holds its identity key, or a new one (`job_worker/delay.py:120–153`,
`models/queue_job.py:991–1000`).
-/

namespace JobWorker

/-- The job that a search for the identity key of a delayable finds. -/
def keyHolder (env : DelayEnv) (st : Session) (call : DelayableCall)
    (properties : DelayableProperties) : Option JobId :=
  (storedIdentityKey (properties.identityKey.resolved call)).bind
    (findByIdentityKey env.orm st.store)

namespace Session

/-- The generated jobs of all delayables have rows. -/
def Known (st : Session) : Prop :=
  ∀ r call properties j, (st.heap r).cls = .delayable call properties (some j) →
    ∃ row, st.store.get? j = some row

/-- The job that `delay` is going to return for a delayable, unless it creates one. -/
def target (env : DelayEnv) (st : Session) (r : Ref) : Option JobId :=
  match (st.heap r).cls with
  | .delayable _ _ (some j) => some j
  | .delayable call properties none => keyHolder env st call properties
  | _ => none

/-- Rows persist, and generated jobs have rows if they had. -/
structure Grows (st st' : Session) : Prop where
  rows : ∀ i r, st.store.get? i = some r → ∃ r', st'.store.get? i = some r'
  known : st.Known → st'.Known

/-- Nothing changes. -/
theorem Grows.refl (st : Session) : Grows st st := ⟨fun _ r h ↦ ⟨r, h⟩, id⟩

/-- Two calls, one after the other. -/
theorem Grows.trans {st st₁ st' : Session} (h : Grows st st₁) (h' : Grows st₁ st') :
    Grows st st' where
  rows i r hr := by
    obtain ⟨r₁, hr₁⟩ := h.rows i r hr
    exact h'.rows i r₁ hr₁
  known hk := h'.known (h.known hk)

end Session

namespace Delaying

open Session

section Primitives

variable {st st' : Session} {r : Ref}

/-- Wiring an object changes no job. -/
theorem grows_assign {f : Scheduler → Scheduler} (h : Returns (assign r f) st () st')
    (hf : ∀ d, (f d).cls = d.cls) : Grows st st' := by
  cases h
  refine ⟨fun _ r h ↦ ⟨r, h⟩, fun hk a call properties j ha ↦ hk a call properties j ?_⟩
  by_cases har : a = r
  · subst har
    rw [← hf, ← ha]
    simp
  · rw [← ha]
    simp [har]

/-- Reading an object changes nothing. -/
theorem eq_of_read {d : Scheduler} (h : Returns (read r) st d st') :
    d = st.heap r ∧ st' = st := by
  cases h
  exact ⟨rfl, rfl⟩

/-- A uuid changes neither objects nor jobs. -/
theorem eq_of_uuid4 {u : Nat} (h : Returns uuid4 st u st') :
    st'.heap = st.heap ∧ st'.store = st.store := by
  cases h
  exact ⟨rfl, rfl⟩

/-- Equal objects and an equal table. -/
theorem grows_of_eq (h : st'.heap = st.heap ∧ st'.store = st.store) : Grows st st' where
  rows i r hr := ⟨r, by rw [h.2, hr]⟩
  known hk := by rwa [Known, h.1, h.2]

/-- A value changes nothing. -/
theorem returns_pure {α : Type} {a b : α} :
    Returns (pure a) st b st' ↔ a = b ∧ st = st' := by
  constructor
  · intro h
    cases h
    exact ⟨rfl, rfl⟩
  · rintro ⟨rfl, rfl⟩
    rfl

/-- A value mapped over a call. -/
theorem returns_map {α β : Type} {m : Delaying α} {f : α → β} {b : β} :
    Returns (f <$> m) st b st' ↔ ∃ a, Returns m st a st' ∧ f a = b := by
  rw [map_eq_pure_bind, returns_bind]
  constructor
  · rintro ⟨a, st₁, hm, hp⟩
    obtain ⟨rfl, rfl⟩ := returns_pure.mp hp
    exact ⟨a, hm, rfl⟩
  · rintro ⟨a, hm, rfl⟩
    exact ⟨a, st', hm, returns_pure.mpr ⟨rfl, rfl⟩⟩

/-- A statement that keeps the rows. -/
theorem grows_onStore {α : Type} {f : Store → Except OrmError (Store × α)} {a : α}
    (hf : ∀ s s', f s = .ok (s', a) → ∀ i r, s.get? i = some r → ∃ r', s'.get? i = some r')
    (h : Returns (onStore f) st a st') : Grows st st' := by
  obtain ⟨s, hs, rfl⟩ := returns_onStore.mp h
  refine ⟨hf _ _ hs, fun hk r call properties j hr ↦ ?_⟩
  obtain ⟨row, hrow⟩ := hk r call properties j hr
  exact hf _ _ hs j row hrow

end Primitives

/-- `enqueue` keeps the rows of the table, and its job has one. -/
theorem rows_enqueue {env : OrmEnv} {now : Time} {s s' : Store} {a : EnqueueArgs} {j : JobId}
    (h : enqueue env now s a = .ok (s', j)) :
    (∀ i r, s.get? i = some r → ∃ r', s'.get? i = some r') ∧ ∃ r, s'.get? j = some r := by
  rcases enqueue_cases h with ⟨rfl, hfound⟩ | ⟨eta, _, _, hcreate⟩
  · exact ⟨fun _ r hr ↦ ⟨r, hr⟩, exists_of_enqueue_found hfound⟩
  · exact ⟨fun i r hr ↦ ⟨r, Store.get?_create_of_some hcreate hr⟩, _,
      Store.get?_create_self hcreate⟩

/-- `run_now` keeps the rows of the table. -/
theorem rows_runNow {run : JobId → Execution} {s s' : Store} {self : List JobId} {raised : Bool}
    (h : runNow run s self = .ok (s', raised)) (i : JobId) (r : Job)
    (hr : s.get? i = some r) : ∃ r', s'.get? i = some r' := by
  induction self generalizing s r with
  | nil =>
    cases h
    exact ⟨r, hr⟩
  | cons job self ih =>
    obtain ⟨⟨s₁, raised₁⟩, h₁, h⟩ := bind_eq_ok.mp h
    have hsame : s.SameWiring s₁ := by
      cases ho : (run job).outcome with
      | returns serialized =>
        obtain rfl := not_raised_of_returns ho h₁
        exact (CompletesSuccessfully.runNow ho h₁).sameWiring
      | raises exc traceback => exact (quiet_runJob ho h₁).sameWiring
    obtain ⟨r₁, hr₁, _⟩ := hsame.row hr
    cases raised₁ with
    | true =>
      cases h
      exact ⟨r₁, hr₁⟩
    | false => exact ih h r₁ hr₁

/-! ### The rule for delay -/

/-- Every call of `delay` keeps `R`. -/
def Keeping (R : Session → Session → Prop) (delay : Ref → Delaying (Option JobId)) : Prop :=
  ∀ r st a st', Returns (delay r) st a st' → R st st'

/-- A relation between sessions that every elementary step of `delay` keeps. -/
structure Tracked (env : DelayEnv) (R : Session → Session → Prop) : Prop where
  refl : ∀ st, R st st
  trans : ∀ {st st₁ st'}, R st st₁ → R st₁ st' → R st st'
  assign : ∀ {r f st st'}, Returns (assign r f) st () st' → (∀ d, (f d).cls = d.cls) → R st st'
  same : ∀ {st st'}, st'.heap = st.heap ∧ st'.store = st.store → R st st'
  enqueueDelayable : ∀ {r call properties graphUuid st job st'},
    Returns (enqueueDelayable env r call properties graphUuid) st job st' → R st st'
  runWithoutDelay : ∀ {job st st'}, Returns (runWithoutDelay env job) st () st' → R st st'

/-- The first member of a group, and the others behind it. -/
theorem delayMembers_cons {delay : Ref → Delaying (Option JobId)} {g member : Ref}
    {graphUuid : Nat} {members : List Ref} {ids : List JobId} {st st' : Session}
    (h : Returns (delayMembers delay g graphUuid (member :: members)) st ids st') :
    ∃ st₁ st₂ job rest, Returns (assign member (wireMember graphUuid (st.heap g))) st () st₁ ∧
      Returns (delay member) st₁ (some job) st₂ ∧
      Returns (delayMembers delay g graphUuid members) st₂ rest st' ∧ ids = job :: rest := by
  obtain ⟨d, st₁, hr, h₁⟩ := returns_bind.mp h
  obtain ⟨rfl, rfl⟩ := eq_of_read hr
  obtain ⟨_, st₂, ha, h₂⟩ := returns_bind.mp h₁
  obtain ⟨job, st₃, hc, h₃⟩ := returns_bind.mp h₂
  cases job with
  | none => cases h₃
  | some job =>
    obtain ⟨rest, st₄, hm, h₄⟩ := returns_bind.mp h₃
    obtain ⟨rfl, rfl⟩ := returns_pure.mp h₄
    exact ⟨st₂, st₃, job, rest, ha, hc, hm, rfl⟩

/-- The parts of `delay` of a delayable without a job. -/
theorem delayDelayable_parts {env : DelayEnv} {delay : Ref → Delaying (Option JobId)} {r : Ref}
    {call : DelayableCall} {properties : DelayableProperties} {job : JobId} {st st' : Session}
    (h : Returns (delayDelayable env delay r call properties) st job st') :
    ∃ u st₁ st₂ st₃ st₄, Returns (jobGraphUuid (st.heap r)) st u st₁ ∧
      Returns (enqueueDelayable env r call properties u) st₁ job st₂ ∧
      Returns (delayCallbacks delay (fun c ↦ { c with graphUuid := u, parentJobId := some job })
        (st.heap r).nextDelayables) st₂ () st₃ ∧
      Returns (delayCallbacks delay (fun c ↦ { c with
        graphUuid := u
        parentJobId := some job
        runOnFailure := true }) (st.heap r).onErrorDelayables) st₃ () st₄ ∧
      Returns (runWithoutDelay env job) st₄ () st' := by
  obtain ⟨d, st₁, hr, h₁⟩ := returns_bind.mp h
  obtain ⟨rfl, rfl⟩ := eq_of_read hr
  obtain ⟨u, st₂, hu, h₂⟩ := returns_bind.mp h₁
  obtain ⟨j, st₃, henq, h₃⟩ := returns_bind.mp h₂
  obtain ⟨_, st₄, hnext, h₄⟩ := returns_bind.mp h₃
  obtain ⟨_, st₅, herror, h₅⟩ := returns_bind.mp h₄
  obtain ⟨_, st₆, hrun, h₆⟩ := returns_bind.mp h₅
  obtain ⟨rfl, rfl⟩ := returns_pure.mp h₆
  exact ⟨u, st₂, st₃, st₄, st₅, hu, henq, hnext, herror, hrun⟩

/-- The graph of a delayable changes neither objects nor jobs. -/
theorem eq_of_jobGraphUuid {d : Scheduler} {graphUuid : Option Nat} {st st' : Session}
    (h : Returns (jobGraphUuid d) st graphUuid st') :
    st'.heap = st.heap ∧ st'.store = st.store := by
  unfold jobGraphUuid at h
  split at h
  · obtain ⟨_, hu, _⟩ := returns_map.mp h
    exact eq_of_uuid4 hu
  · obtain ⟨_, rfl⟩ := returns_pure.mp h
    exact ⟨rfl, rfl⟩

/-- The graph of a scheduler, old or new, changes neither objects nor jobs. -/
theorem eq_of_graphUuidOf {r : Ref} {u : Nat} {st st' : Session}
    (h : Returns (graphUuidOf r) st u st') : st'.heap = st.heap ∧ st'.store = st.store := by
  obtain ⟨d, st₁, hd, hu⟩ := returns_bind.mp h
  obtain ⟨_, rfl⟩ := eq_of_read hd
  split at hu
  · obtain ⟨_, rfl⟩ := returns_pure.mp hu
    exact ⟨rfl, rfl⟩
  · exact eq_of_uuid4 hu

section Rule

variable {env : DelayEnv} {R : Session → Session → Prop}
  {delay : Ref → Delaying (Option JobId)} {g : Ref} {graphUuid : Nat} {st st' : Session}

/-- The loop over callbacks. -/
theorem Tracked.delayCallbacks (hR : Tracked env R) (hd : Keeping R delay)
    {wire : Scheduler → Scheduler} {callbacks : List Ref}
    (h : Returns (delayCallbacks delay wire callbacks) st () st')
    (hwire : ∀ c, (wire c).cls = c.cls) : R st st' := by
  induction callbacks generalizing st with
  | nil =>
    obtain ⟨_, rfl⟩ := returns_pure.mp h
    exact hR.refl _
  | cons c callbacks ih =>
    obtain ⟨_, st₁, ha, h⟩ := returns_bind.mp h
    obtain ⟨job, st₂, hc, h⟩ := returns_bind.mp h
    exact hR.trans (hR.trans (hR.assign ha hwire) (hd _ _ _ _ hc)) (ih h)

/-- The loop over the steps of a chain. -/
theorem Tracked.delaySteps (hR : Tracked env R) (hd : Keeping R delay)
    {previousJob last : Option JobId} {first : Bool} {steps : List Ref}
    (h : Returns (delaySteps delay g graphUuid previousJob first steps) st last st') :
    R st st' := by
  induction steps generalizing st previousJob first with
  | nil =>
    obtain ⟨_, rfl⟩ := returns_pure.mp h
    exact hR.refl _
  | cons c steps ih =>
    obtain ⟨d, st₁, hr, h₁⟩ := returns_bind.mp h
    obtain ⟨_, rfl⟩ := eq_of_read hr
    obtain ⟨_, st₂, ha, h₂⟩ := returns_bind.mp h₁
    obtain ⟨job, st₃, hc, h₃⟩ := returns_bind.mp h₂
    exact hR.trans (hR.trans (hR.assign ha fun _ ↦ rfl) (hd _ _ _ _ hc)) (ih h₃)

/-- The loop over the members of a group. -/
theorem Tracked.delayMembers (hR : Tracked env R) (hd : Keeping R delay)
    {members : List Ref} {ids : List JobId}
    (h : Returns (delayMembers delay g graphUuid members) st ids st') : R st st' := by
  induction members generalizing st ids with
  | nil =>
    obtain ⟨_, rfl⟩ := returns_pure.mp h
    exact hR.refl _
  | cons member members ih =>
    obtain ⟨st₁, st₂, job, rest, ha, hc, hm, rfl⟩ := delayMembers_cons h
    exact hR.trans (hR.trans (hR.assign ha fun _ ↦ rfl) (hd _ _ _ _ hc)) (ih hm)

/-- `delay` of a delayable without a job. -/
theorem Tracked.delayDelayable (hR : Tracked env R) (hd : Keeping R delay) {r : Ref}
    {call : DelayableCall} {properties : DelayableProperties} {job : JobId}
    (h : Returns (delayDelayable env delay r call properties) st job st') : R st st' := by
  obtain ⟨u, st₁, st₂, st₃, st₄, hu, henq, hnext, herror, hrun⟩ := delayDelayable_parts h
  have hjob := hR.trans (hR.same (eq_of_jobGraphUuid hu)) (hR.enqueueDelayable henq)
  have hcallbacks := hR.trans (hR.delayCallbacks hd hnext fun _ ↦ rfl)
    (hR.delayCallbacks hd herror fun _ ↦ rfl)
  exact hR.trans (hR.trans hjob hcallbacks) (hR.runWithoutDelay hrun)

/-- A tracked relation holds over every call of `delay`, whatever the objects and their
links. -/
theorem Tracked.keeping (hR : Tracked env R) (fuel : Nat) :
    Keeping R (Delaying.delay env fuel) := by
  induction fuel with
  | zero =>
    intro r st a st' h
    cases h
  | succ fuel ih =>
    intro r st a st' h
    obtain ⟨d, st₁, hr, h₁⟩ := returns_bind.mp h
    obtain ⟨rfl, rfl⟩ := eq_of_read hr
    split at h₁
    · obtain ⟨_, rfl⟩ := returns_pure.mp h₁
      exact hR.refl _
    · obtain ⟨job, h₂, _⟩ := returns_map.mp h₁
      exact hR.delayDelayable ih h₂
    · obtain ⟨_, st₂, h₂, h₃⟩ := returns_bind.mp h₁
      obtain ⟨_, rfl⟩ := returns_pure.mp h₃
      obtain ⟨u, st₃, hu, h₄⟩ := returns_bind.mp h₂
      obtain ⟨ids, st₄, hm, h₅⟩ := returns_bind.mp h₄
      obtain ⟨g, st₅, hg, h₆⟩ := returns_bind.mp h₅
      obtain ⟨rfl, rfl⟩ := eq_of_read hg
      obtain ⟨_, st₆, hnext, herror⟩ := returns_bind.mp h₆
      have hmembers := hR.trans (hR.same (eq_of_graphUuidOf hu)) (hR.delayMembers ih hm)
      exact hR.trans hmembers (hR.trans (hR.delayCallbacks ih hnext fun _ ↦ rfl)
        (hR.delayCallbacks ih herror fun _ ↦ rfl))
    · obtain ⟨_, st₂, h₂, h₃⟩ := returns_bind.mp h₁
      obtain ⟨_, rfl⟩ := returns_pure.mp h₃
      obtain ⟨u, st₃, hu, h₄⟩ := returns_bind.mp h₂
      obtain ⟨last, st₄, hm, h₅⟩ := returns_bind.mp h₄
      obtain ⟨g, st₅, hg, h₆⟩ := returns_bind.mp h₅
      obtain ⟨rfl, rfl⟩ := eq_of_read hg
      obtain ⟨_, st₆, hnext, herror⟩ := returns_bind.mp h₆
      have hsteps := hR.trans (hR.same (eq_of_graphUuidOf hu)) (hR.delaySteps ih hm)
      exact hR.trans hsteps (hR.trans (hR.delayCallbacks ih hnext fun _ ↦ rfl)
        (hR.delayCallbacks ih herror fun _ ↦ rfl))

end Rule

/-! ### The job of a delayable -/

section Delayable

variable {env : DelayEnv} {delay : Ref → Delaying (Option JobId)} {r : Ref}
  {call : DelayableCall} {properties : DelayableProperties} {graphUuid : Option Nat}
  {st st' : Session} {job : JobId}

/-- What `enqueue` does for a delayable: one call of `enqueue` on the table, and the
generated job is its result. -/
theorem enqueueDelayable_enqueue
    (h : Returns (enqueueDelayable env r call properties graphUuid) st job st') :
    ∃ args s, enqueue env.orm env.now st.store args = .ok (s, job) ∧
      args.identityKey = properties.identityKey.resolved call ∧
      st'.store = s ∧ st'.heap = Function.update st.heap r
        { st.heap r with cls := .delayable call properties (some job) } := by
  unfold enqueueDelayable at h
  split at h
  · cases h
  · next method hmethod =>
    obtain ⟨d, st₁, hr, h₁⟩ := returns_bind.mp h
    obtain ⟨rfl, rfl⟩ := eq_of_read hr
    obtain ⟨j, st₂, hon, h₂⟩ := returns_bind.mp h₁
    obtain ⟨_, st₃, ha, h₃⟩ := returns_bind.mp h₂
    obtain ⟨rfl, rfl⟩ := returns_pure.mp h₃
    obtain ⟨s, henq, rfl⟩ := returns_onStore.mp hon
    cases ha
    exact ⟨_, s, henq, rfl, rfl, rfl⟩

/-- `enqueue` of a delayable: the job has a row, and is the active holder of its identity
key or new. -/
theorem enqueueDelayable_spec
    (h : Returns (enqueueDelayable env r call properties graphUuid) st job st') :
    Grows st st' ∧ (∃ row, st'.store.get? job = some row) ∧
      (keyHolder env st call properties = some job ∨
        keyHolder env st call properties = none ∧ st.store.get? job = none) := by
  obtain ⟨args, s, henq, hkey, hstore, hheap⟩ := enqueueDelayable_enqueue h
  obtain ⟨hrows, hjob⟩ := rows_enqueue henq
  rw [← hstore] at hrows hjob
  refine ⟨⟨hrows, fun hk a c p i hi ↦ ?_⟩, hjob, ?_⟩
  · rw [hheap] at hi
    by_cases har : a = r
    · subst har
      simp only [Function.update_self, SchedulerClass.delayable.injEq, Option.some.injEq] at hi
      exact hi.2.2 ▸ hjob
    · simp only [Function.update_of_ne har] at hi
      obtain ⟨row, hrow⟩ := hk a c p i hi
      exact hrows i row hrow
  · rw [keyHolder, ← hkey]
    rcases enqueue_cases henq with ⟨_, hfound⟩ | ⟨eta, _, hfound, hcreate⟩
    · exact .inl hfound
    · exact .inr ⟨hfound, Store.create_fresh hcreate⟩

/-- Running the job in place of the queue keeps the rows. -/
theorem grows_runWithoutDelay (h : Returns (runWithoutDelay env job) st () st') :
    Grows st st' := by
  unfold runWithoutDelay at h
  split at h
  · obtain ⟨raised, st₁, hrun, h₁⟩ := returns_bind.mp h
    cases raised with
    | true => cases h₁
    | false =>
      obtain ⟨_, rfl⟩ := returns_pure.mp h₁
      exact grows_onStore (fun _ _ hs ↦ rows_runNow hs) hrun
  · obtain ⟨_, rfl⟩ := returns_pure.mp h
    exact .refl _

/-- `delay` keeps rows and known jobs. -/
theorem tracked_grows (env : DelayEnv) : Tracked env Grows where
  refl := .refl
  trans := .trans
  assign := grows_assign
  same := grows_of_eq
  enqueueDelayable h := (enqueueDelayable_spec h).1
  runWithoutDelay := grows_runWithoutDelay

/-- The job of a delayable without one has a row, and is the active holder of its identity
key or new. -/
theorem delayDelayable_spec (hd : Keeping Grows delay)
    (h : Returns (delayDelayable env delay r call properties) st job st') :
    (∃ row, st'.store.get? job = some row) ∧
      (keyHolder env st call properties = some job ∨
        keyHolder env st call properties = none ∧ st.store.get? job = none) := by
  obtain ⟨u, st₁, st₂, st₃, st₄, hu, henq, hnext, herror, hrun⟩ := delayDelayable_parts h
  obtain ⟨_, ⟨row, hrow⟩, hjob⟩ := enqueueDelayable_spec henq
  have hR := tracked_grows env
  have hcallbacks : Grows st₂ st₄ := (hR.delayCallbacks hd hnext fun _ ↦ rfl).trans
    (hR.delayCallbacks hd herror fun _ ↦ rfl)
  refine ⟨(hcallbacks.trans (grows_runWithoutDelay hrun)).rows job row hrow, ?_⟩
  rwa [keyHolder, (eq_of_jobGraphUuid hu).2] at hjob

end Delayable

/-- The job that `delay` returns is the target of the delayable, or new. -/
theorem delay_target {env : DelayEnv} {fuel : Nat} {r : Ref} {st st' : Session} {job : JobId}
    (hk : st.Known) (h : Returns (delay env fuel r) st (some job) st') :
    (∃ row, st'.store.get? job = some row) ∧
      (st.target env r = some job ∨ st.target env r = none ∧ st.store.get? job = none) := by
  cases fuel with
  | zero => cases h
  | succ fuel =>
    obtain ⟨d, st₁, hr, h₁⟩ := returns_bind.mp h
    obtain ⟨rfl, rfl⟩ := eq_of_read hr
    unfold target
    split at h₁
    · next call properties j hcls =>
      obtain ⟨hj, rfl⟩ := returns_pure.mp h₁
      cases hj
      rw [hcls]
      exact ⟨hk r call properties job hcls, .inl rfl⟩
    · next call properties hcls =>
      obtain ⟨j, h₂, hj⟩ := returns_map.mp h₁
      cases hj
      rw [hcls]
      exact delayDelayable_spec ((tracked_grows env).keeping fuel) h₂
    · obtain ⟨_, st₂, _, h₃⟩ := returns_bind.mp h₁
      obtain ⟨hj, _⟩ := returns_pure.mp h₃
      cases hj
    · obtain ⟨_, st₂, _, h₃⟩ := returns_bind.mp h₁
      obtain ⟨hj, _⟩ := returns_pure.mp h₃
      cases hj

end Delaying
end JobWorker
