import JobWorker.DelayEffects

/-!
# Trees of schedulers

Schedulers that are linked as trees in the heap, every object used once, and the loops in
which `delay` visits the callbacks, members and steps of one of them
(`job_worker/delay.py:120–165,240–331`). All three loops assign wiring to an object and
delay it; they differ in what they assign.
-/

namespace JobWorker

/-- The wiring attributes of a scheduler; `delay.py:47–52,222–230,281–286`. -/
structure Context where
  graphUuid : Option Nat := none
  parentJobId : Option JobId := none
  dependencyJobIds : Option (List JobId) := none
  runOnFailure : Bool := false
  deriving DecidableEq

/-- The wiring attributes of an object. -/
def Scheduler.context (d : Scheduler) : Context :=
  ⟨d.graphUuid, d.parentJobId, d.dependencyJobIds, d.runOnFailure⟩

/-- The object is a `Delayable`. -/
def Scheduler.IsDelayable (d : Scheduler) : Prop :=
  ∃ call properties job, d.cls = .delayable call properties job

/-- Two objects are the same but for their wiring. -/
structure Scheduler.SameLinks (d d' : Scheduler) : Prop where
  cls : d'.cls = d.cls
  nextDelayables : d'.nextDelayables = d.nextDelayables
  onErrorDelayables : d'.onErrorDelayables = d.onErrorDelayables

/-- Wiring one object changes the links of none. -/
theorem Scheduler.SameLinks.update {heap : Ref → Scheduler} {r : Ref} {d : Scheduler}
    (h : (heap r).SameLinks d) (a : Ref) : (heap a).SameLinks (Function.update heap r d a) := by
  by_cases ha : a = r
  · rw [ha, Function.update_self]
    exact h
  · rw [Function.update_of_ne ha]
    exact ⟨rfl, rfl, rfl⟩

/-- The identity key that a delayable hands to `enqueue`. -/
def Scheduler.identityKey (d : Scheduler) : Option IdentityKey :=
  match d.cls with
  | .delayable call properties _ => storedIdentityKey (properties.identityKey.resolved call)
  | _ => none

/-- The object is a group or a chain of `delayables`. -/
def Scheduler.Comprises (d : Scheduler) (delayables : List Ref) : Prop :=
  d.cls = .group delayables ∨ d.cls = .chain delayables

/-- The objects that an object refers to. -/
def Scheduler.links (d : Scheduler) : List Ref :=
  match d.cls with
  | .delayable _ _ _ => d.nextDelayables ++ d.onErrorDelayables
  | .group delayables | .chain delayables =>
    delayables ++ (d.nextDelayables ++ d.onErrorDelayables)

/-- The objects `refs` are the ones of a forest with the roots `roots`, in the order in
which `delay` visits them. No delayable has generated its job, and the members of groups
and chains are delayables. -/
inductive Forest (heap : Ref → Scheduler) : List Ref → List Ref → Prop
  | nil : Forest heap [] []
  | delayable {r : Ref} {call : DelayableCall} {properties : DelayableProperties}
      {roots next error rest : List Ref} :
      (heap r).cls = .delayable call properties none →
      Forest heap (heap r).nextDelayables next → Forest heap (heap r).onErrorDelayables error →
      Forest heap roots rest → Forest heap (r :: roots) (r :: (next ++ error) ++ rest)
  | compound {r : Ref} {delayables roots members next error rest : List Ref} :
      (heap r).Comprises delayables → (∀ d ∈ delayables, (heap d).IsDelayable) →
      Forest heap delayables members → Forest heap (heap r).nextDelayables next →
      Forest heap (heap r).onErrorDelayables error → Forest heap roots rest →
      Forest heap (r :: roots) (r :: (members ++ (next ++ error)) ++ rest)

instance (d : Scheduler) : Decidable d.IsDelayable :=
  match h : d.cls with
  | .delayable call properties job => isTrue ⟨call, properties, job, h⟩
  | .group _ => isFalse fun ⟨_, _, _, h'⟩ ↦ by rw [h] at h'; cases h'
  | .chain _ => isFalse fun ⟨_, _, _, h'⟩ ↦ by rw [h] at h'; cases h'

/-- The objects of a forest, computed. -/
def visited (heap : Ref → Scheduler) : Nat → List Ref → Option (List Ref)
  | 0, _ => none
  | _ + 1, [] => some []
  | fuel + 1, r :: roots => do
    let next ← visited heap fuel (heap r).nextDelayables
    let error ← visited heap fuel (heap r).onErrorDelayables
    let rest ← visited heap fuel roots
    match (heap r).cls with
    | .delayable _ _ none => some (r :: (next ++ error) ++ rest)
    | .delayable _ _ (some _) => none
    | .group delayables | .chain delayables =>
      if ∀ d ∈ delayables, (heap d).IsDelayable then do
        let members ← visited heap fuel delayables
        some (r :: (members ++ (next ++ error)) ++ rest)
      else none

/-- What is visited is a forest. -/
theorem forest_of_visited {heap : Ref → Scheduler} {fuel : Nat} {roots refs : List Ref}
    (h : visited heap fuel roots = some refs) : Forest heap roots refs := by
  induction fuel generalizing roots refs with
  | zero => cases h
  | succ fuel ih =>
    cases roots with
    | nil => cases h; exact .nil
    | cons r roots =>
      obtain ⟨next, hnext, h⟩ := Option.bind_eq_some_iff.mp h
      obtain ⟨error, herror, h⟩ := Option.bind_eq_some_iff.mp h
      obtain ⟨rest, hrest, h⟩ := Option.bind_eq_some_iff.mp h
      have hcompound {delayables : List Ref} (hcls : (heap r).Comprises delayables)
          (h : (if ∀ d ∈ delayables, (heap d).IsDelayable then
            (visited heap fuel delayables).bind fun members ↦
              some (r :: (members ++ (next ++ error)) ++ rest) else none) = some refs) :
          Forest heap (r :: roots) refs := by
        obtain ⟨hd, h⟩ := Option.ite_none_right_eq_some.mp h
        obtain ⟨members, hmembers, h⟩ := Option.bind_eq_some_iff.mp h
        cases h
        exact .compound hcls hd (ih hmembers) (ih hnext) (ih herror) (ih hrest)
      split at h
      · next hcls =>
        cases h
        exact .delayable hcls (ih hnext) (ih herror) (ih hrest)
      · cases h
      · next hcls => exact hcompound (.inl hcls) h
      · next hcls => exact hcompound (.inr hcls) h

/-- The roots of a forest are among its objects. -/
theorem Forest.mem_of_mem_roots {heap : Ref → Scheduler} {roots refs : List Ref}
    (h : Forest heap roots refs) {r : Ref} (hr : r ∈ roots) : r ∈ refs := by
  induction h with
  | nil => cases hr
  | delayable _ _ _ _ _ _ ih | compound _ _ _ _ _ _ _ _ _ ih =>
    rcases List.mem_cons.mp hr with rfl | hr
    · exact List.mem_append_left _ List.mem_cons_self
    · exact List.mem_append_right _ (ih hr)

/-- A group or chain has one list of delayables. -/
theorem Scheduler.Comprises.unique {d : Scheduler} {delayables delayables' : List Ref}
    (h : d.Comprises delayables) (h' : d.Comprises delayables') : delayables = delayables' := by
  rcases h with h | h <;> rcases h' with h' | h' <;> rw [h] at h' <;> cases h' <;> rfl

/-- The members of the groups and chains of a forest are delayables. -/
theorem Forest.isDelayable {heap : Ref → Scheduler} {roots refs : List Ref}
    (h : Forest heap roots refs) {p d : Ref} {delayables : List Ref} (hp : p ∈ refs)
    (hcls : (heap p).Comprises delayables) (hd : d ∈ delayables) : (heap d).IsDelayable := by
  induction h with
  | nil => cases hp
  | @delayable r call properties roots next error rest hcls' _ _ _ ihNext ihError ih =>
    simp only [List.cons_append, List.append_assoc, List.mem_cons, List.mem_append] at hp
    rcases hp with rfl | hp | hp | hp
    · rcases hcls with hcls | hcls <;> rw [hcls'] at hcls <;> cases hcls
    · exact ihNext hp
    · exact ihError hp
    · exact ih hp
  | compound hcls' hmembers _ _ _ _ ihMembers ihNext ihError ih =>
    simp only [List.cons_append, List.append_assoc, List.mem_cons, List.mem_append] at hp
    rcases hp with rfl | hp | hp | hp | hp
    · exact hmembers d (hcls.unique hcls' ▸ hd)
    · exact ihMembers hp
    · exact ihNext hp
    · exact ihError hp
    · exact ih hp

/-- Two forests side by side. -/
theorem Forest.append {heap : Ref → Scheduler} {roots roots' refs refs' : List Ref}
    (h : Forest heap roots refs) (h' : Forest heap roots' refs') :
    Forest heap (roots ++ roots') (refs ++ refs') := by
  induction h with
  | nil => exact h'
  | delayable hcls hnext herror _ _ _ ih =>
    rw [List.append_assoc]
    exact .delayable hcls hnext herror ih
  | compound hcls hd hmembers hnext herror _ _ _ _ ih =>
    rw [List.append_assoc]
    exact .compound hcls hd hmembers hnext herror ih

/-- Below the root of a tree there is the forest of its links. -/
theorem Forest.links {heap : Ref → Scheduler} {root : Ref} {refs : List Ref}
    (h : Forest heap [root] refs) : ∃ below, refs = root :: below ∧
      Forest heap (heap root).links below := by
  cases h with
  | @delayable _ call properties _ next error rest hcls hnext herror hrest =>
    cases hrest
    refine ⟨next ++ error, by simp, ?_⟩
    rw [Scheduler.links, hcls]
    exact hnext.append herror
  | @compound _ delayables _ members next error rest hcls _ hmembers hnext herror hrest =>
    cases hrest
    refine ⟨members ++ (next ++ error), by simp, ?_⟩
    unfold Scheduler.links
    rcases hcls with hcls | hcls <;> rw [hcls] <;>
      exact hmembers.append (hnext.append herror)

/-- Where an object stands in a forest. -/
inductive Origin (heap : Ref → Scheduler) (roots refs : List Ref) (a : Ref) : Prop
  | root : a ∈ roots → Origin heap roots refs a
  | next {p : Ref} : p ∈ refs → a ∈ (heap p).nextDelayables → Origin heap roots refs a
  | error {p : Ref} : p ∈ refs → a ∈ (heap p).onErrorDelayables → Origin heap roots refs a
  | member {p : Ref} {delayables : List Ref} : p ∈ refs → (heap p).Comprises delayables →
      a ∈ delayables → Origin heap roots refs a

/-- The place in a part of a forest whose roots have a place. -/
theorem Origin.of_part {heap : Ref → Scheduler} {roots refs part parts : List Ref} {a : Ref}
    (h : Origin heap part parts a) (hparts : ∀ p ∈ parts, p ∈ refs)
    (hroots : ∀ p ∈ part, Origin heap roots refs p) : Origin heap roots refs a := by
  cases h with
  | root ha => exact hroots a ha
  | next hp ha => exact .next (hparts _ hp) ha
  | error hp ha => exact .error (hparts _ hp) ha
  | member hp hcls ha => exact .member (hparts _ hp) hcls ha

/-- Every object of a forest has a place. -/
theorem Forest.origin {heap : Ref → Scheduler} {roots refs : List Ref}
    (h : Forest heap roots refs) {a : Ref} (ha : a ∈ refs) : Origin heap roots refs a := by
  induction h with
  | nil => cases ha
  | @delayable r call properties roots next error rest hcls _ _ _ ihNext ihError ih =>
    have hr : r ∈ r :: (next ++ error) ++ rest := by simp
    simp only [List.cons_append, List.append_assoc, List.mem_cons, List.mem_append] at ha
    rcases ha with rfl | ha | ha | ha
    · exact .root List.mem_cons_self
    · exact (ihNext ha).of_part (fun p hp ↦ by simp [hp]) fun p hp ↦ .next hr hp
    · exact (ihError ha).of_part (fun p hp ↦ by simp [hp]) fun p hp ↦ .error hr hp
    · exact (ih ha).of_part (fun p hp ↦ by simp [hp]) fun p hp ↦ .root (List.mem_cons_of_mem _ hp)
  | @compound r delayables roots members next error rest hcls _ _ _ _ _ ihMembers ihNext ihError
      ih =>
    have hr : r ∈ r :: (members ++ (next ++ error)) ++ rest := by simp
    simp only [List.cons_append, List.append_assoc, List.mem_cons, List.mem_append] at ha
    rcases ha with rfl | ha | ha | ha | ha
    · exact .root List.mem_cons_self
    · exact (ihMembers ha).of_part (fun p hp ↦ by simp [hp]) fun p hp ↦ .member hr hcls hp
    · exact (ihNext ha).of_part (fun p hp ↦ by simp [hp]) fun p hp ↦ .next hr hp
    · exact (ihError ha).of_part (fun p hp ↦ by simp [hp]) fun p hp ↦ .error hr hp
    · exact (ih ha).of_part (fun p hp ↦ by simp [hp]) fun p hp ↦ .root (List.mem_cons_of_mem _ hp)

namespace Session

/-- The generated job of an object. -/
def jobOf (st : Session) (r : Ref) : Option JobId :=
  match (st.heap r).cls with
  | .delayable _ _ job => job
  | _ => none

/-- The jobs of a scheduler: its own, or those of its members. -/
def jobsOf (st : Session) (r : Ref) : List JobId :=
  match (st.heap r).cls with
  | .delayable _ _ job => job.toList
  | .group delayables | .chain delayables => delayables.filterMap st.jobOf

end Session

namespace Delaying

/-! ### The loops of delay -/

/-- What a loop assigns to an object: from the scheduler that runs it, the job of the object
before, and whether it is the first. -/
abbrev Wire := Scheduler → Option JobId → Bool → Scheduler → Scheduler

/-- A loop of `self` over `roots`, with the jobs that the calls of `delay` return. -/
inductive Visits (delay : Ref → Delaying (Option JobId)) (self : Ref) (wire : Wire) :
    Option JobId → Bool → List Ref → Session → List (Option JobId) → Session → Prop
  | nil {previous : Option JobId} {first : Bool} {st : Session} :
      Visits delay self wire previous first [] st [] st
  | cons {previous job : Option JobId} {first : Bool} {r : Ref} {roots : List Ref}
      {st st₁ st₂ st' : Session} {jobs : List (Option JobId)} :
      Returns (assign r (wire (st.heap self) previous first)) st () st₁ →
      Returns (delay r) st₁ job st₂ → Visits delay self wire job false roots st₂ jobs st' →
      Visits delay self wire previous first (r :: roots) st (job :: jobs) st'

/-- The contexts that a loop of `g` leaves on its objects in turn. -/
def Handed (wire : Wire) (g : Scheduler) (st : Session) : Option JobId → Bool → List Ref → Prop
  | _, _, [] => True
  | previous, first, r :: roots =>
    (st.heap r).context = (wire g previous first { cls := .group [] }).context ∧
      Handed wire g st (st.jobOf r) false roots

/-- A loop assigns wiring only, and on an object without any the wiring does not depend on
the object. -/
structure Wire.Wires (wire : Wire) : Prop where
  sameLinks : ∀ g previous first (d : Scheduler), d.SameLinks (wire g previous first d)
  context : ∀ g previous first (d : Scheduler), d.context = {} → (wire g previous first d).context =
    (wire g previous first { cls := .group [] }).context

section Loops

variable {delay : Ref → Delaying (Option JobId)} {self : Ref} {roots : List Ref}
  {st st' : Session} {graphUuid : Nat}

/-- Callbacks are all wired alike. -/
theorem visits_of_delayCallbacks {f : Scheduler → Scheduler} (self : Ref)
    (previous : Option JobId) (first : Bool)
    (h : Returns (delayCallbacks delay f roots) st () st') :
    ∃ jobs, Visits delay self (fun _ _ _ ↦ f) previous first roots st jobs st' := by
  induction roots generalizing st previous first with
  | nil =>
    obtain ⟨_, rfl⟩ := returns_pure.mp h
    exact ⟨[], .nil⟩
  | cons r roots ih =>
    obtain ⟨_, st₁, ha, h⟩ := returns_bind.mp h
    obtain ⟨job, st₂, hc, h⟩ := returns_bind.mp h
    obtain ⟨jobs, hrest⟩ := ih job false h
    exact ⟨job :: jobs, .cons ha hc hrest⟩

/-- Members take over the wiring of the group. -/
theorem visits_of_delayMembers {ids : List JobId} {previous : Option JobId} {first : Bool}
    (h : Returns (delayMembers delay self graphUuid roots) st ids st') :
    Visits delay self (fun g _ _ ↦ wireMember graphUuid g) previous first roots st
      (ids.map some) st' := by
  induction roots generalizing st ids previous first with
  | nil =>
    obtain ⟨rfl, rfl⟩ := returns_pure.mp h
    exact .nil
  | cons r roots ih =>
    obtain ⟨st₁, st₂, job, rest, ha, hc, hm, rfl⟩ := delayMembers_cons h
    exact .cons ha hc (ih hm)

/-- Steps are wired to the step before. -/
theorem visits_of_delaySteps {previous last : Option JobId} {first : Bool}
    (h : Returns (delaySteps delay self graphUuid previous first roots) st last st') :
    ∃ jobs, Visits delay self (fun g previous first ↦ wireStep graphUuid previous first g)
      previous first roots st jobs st' ∧ last = jobs.getLast?.getD previous := by
  induction roots generalizing st previous first with
  | nil =>
    obtain ⟨rfl, rfl⟩ := returns_pure.mp h
    exact ⟨[], .nil, rfl⟩
  | cons r roots ih =>
    obtain ⟨d, st₁, hr, h₁⟩ := returns_bind.mp h
    obtain ⟨rfl, rfl⟩ := eq_of_read hr
    obtain ⟨_, st₂, ha, h₂⟩ := returns_bind.mp h₁
    obtain ⟨job, st₃, hc, h₃⟩ := returns_bind.mp h₂
    obtain ⟨jobs, hv, hlast⟩ := ih h₃
    refine ⟨job :: jobs, .cons ha hc hv, ?_⟩
    rw [hlast]
    cases jobs with
    | nil => rfl
    | cons j jobs =>
      rw [List.getLast?_cons_cons, List.getLast?_eq_some_getLast (List.cons_ne_nil j jobs)]
      rfl

end Loops

/-- Wiring of the callbacks of a delayable; `delay.py:154–162`. -/
abbrev wireCallback (graphUuid : Option Nat) (job : JobId) : Wire := fun _ _ _ c ↦
  { c with graphUuid := graphUuid, parentJobId := some job }

/-- Wiring of the callbacks of a chain; `delay.py:320–331`. -/
abbrev wireAfterChain (graphUuid : Nat) (previousJob : Option JobId) : Wire := fun _ _ _ c ↦
  { c with graphUuid := some graphUuid, parentJobId := previousJob <|> c.parentJobId }

/-- The same wiring for on_error callbacks. -/
abbrev Wire.onError (wire : Wire) : Wire := fun g previous first c ↦
  { wire g previous first c with runOnFailure := true }

/-- A loop assigns wiring only. -/
def KeepsLinks (wire : Wire) : Prop :=
  ∀ g previous first (d : Scheduler), d.SameLinks (wire g previous first d)

theorem KeepsLinks.onError {wire : Wire} (h : KeepsLinks wire) : KeepsLinks wire.onError :=
  fun g previous first d ↦ ⟨(h g previous first d).cls, (h g previous first d).nextDelayables,
    (h g previous first d).onErrorDelayables⟩

theorem keepsLinks_members (u : Nat) : KeepsLinks fun g _ _ ↦ wireMember u g :=
  fun _ _ _ _ ↦ ⟨rfl, rfl, rfl⟩

theorem keepsLinks_steps (u : Nat) :
    KeepsLinks fun g previous first ↦ wireStep u previous first g :=
  fun _ _ _ _ ↦ ⟨rfl, rfl, rfl⟩

/-- A call of `delay` by its loops. -/
inductive Call (env : DelayEnv) (fuel : Nat) (x : Ref) (st : Session) :
    Option JobId → Session → Prop
  | known {call : DelayableCall} {properties : DelayableProperties} {j : JobId} :
      (st.heap x).cls = .delayable call properties (some j) → Call env fuel x st (some j) st
  | delayable {call : DelayableCall} {properties : DelayableProperties} {u : Option Nat}
      {j : JobId} {st₁ st₂ st₃ st₄ st' : Session} {jobs jobs' : List (Option JobId)} :
      (st.heap x).cls = .delayable call properties none →
      Returns (jobGraphUuid (st.heap x)) st u st₁ →
      Returns (enqueueDelayable env x call properties u) st₁ j st₂ →
      Visits (delay env fuel) x (wireCallback u j) none true (st.heap x).nextDelayables
        st₂ jobs st₃ →
      Visits (delay env fuel) x (wireCallback u j).onError none true (st.heap x).onErrorDelayables
        st₃ jobs' st₄ →
      Returns (runWithoutDelay env j) st₄ () st' → Call env fuel x st (some j) st'
  | group {delayables : List Ref} {u : Nat} {ids : List JobId} {st₁ st₂ st₃ st' : Session}
      {jobs jobs' : List (Option JobId)} :
      (st.heap x).cls = .group delayables → Returns (graphUuidOf x) st u st₁ →
      Visits (delay env fuel) x (fun g _ _ ↦ wireMember u g) none true delayables
        st₁ (ids.map some) st₂ →
      Visits (delay env fuel) x (fun _ _ _ ↦ wireNext u ids) none true
        (st₂.heap x).nextDelayables st₂ jobs st₃ →
      Visits (delay env fuel) x (Wire.onError fun _ _ _ ↦ wireNext u ids) none true
        (st₂.heap x).onErrorDelayables st₃ jobs' st' → Call env fuel x st none st'
  | chain {delayables : List Ref} {u : Nat} {st₁ st₂ st₃ st' : Session}
      {steps jobs jobs' : List (Option JobId)} :
      (st.heap x).cls = .chain delayables → Returns (graphUuidOf x) st u st₁ →
      Visits (delay env fuel) x (fun g previous first ↦ wireStep u previous first g) none true
        delayables st₁ steps st₂ →
      Visits (delay env fuel) x (wireAfterChain u (steps.getLast?.getD none)) none true
        (st₂.heap x).nextDelayables st₂ jobs st₃ →
      Visits (delay env fuel) x (wireAfterChain u (steps.getLast?.getD none)).onError none true
        (st₂.heap x).onErrorDelayables st₃ jobs' st' → Call env fuel x st none st'

/-- What a call of `delay` that returns has done. -/
theorem call_of_delay {env : DelayEnv} {fuel : Nat} {x : Ref} {st st' : Session}
    {job : Option JobId} (h : Returns (delay env (fuel + 1) x) st job st') :
    Call env fuel x st job st' := by
  obtain ⟨d, st₀, hread, h⟩ := returns_bind.mp h
  obtain ⟨rfl, rfl⟩ := eq_of_read hread
  split at h
  · next hcls =>
    obtain ⟨rfl, rfl⟩ := returns_pure.mp h
    exact .known hcls
  · next hcls =>
    obtain ⟨j, hd, rfl⟩ := returns_map.mp h
    obtain ⟨u, st₁, st₂, st₃, st₄, hu, henq, hnext, herror, hrun⟩ := delayDelayable_parts hd
    obtain ⟨jobs, hnext⟩ := visits_of_delayCallbacks x none true hnext
    obtain ⟨jobs', herror⟩ := visits_of_delayCallbacks x none true herror
    exact .delayable hcls hu henq hnext herror hrun
  · next hcls =>
    obtain ⟨_, st', hd, hp⟩ := returns_bind.mp h
    obtain ⟨rfl, rfl⟩ := returns_pure.mp hp
    obtain ⟨u, st₁, hu, hd⟩ := returns_bind.mp hd
    obtain ⟨ids, st₂, hm, hd⟩ := returns_bind.mp hd
    obtain ⟨g, st₃, hg, hd⟩ := returns_bind.mp hd
    obtain ⟨rfl, rfl⟩ := eq_of_read hg
    obtain ⟨_, st₄, hnext, herror⟩ := returns_bind.mp hd
    obtain ⟨jobs, hnext⟩ := visits_of_delayCallbacks x none true hnext
    obtain ⟨jobs', herror⟩ := visits_of_delayCallbacks x none true herror
    exact .group hcls hu (visits_of_delayMembers hm) hnext herror
  · next hcls =>
    obtain ⟨_, st', hd, hp⟩ := returns_bind.mp h
    obtain ⟨rfl, rfl⟩ := returns_pure.mp hp
    obtain ⟨u, st₁, hu, hd⟩ := returns_bind.mp hd
    obtain ⟨last, st₂, hm, hd⟩ := returns_bind.mp hd
    obtain ⟨g, st₃, hg, hd⟩ := returns_bind.mp hd
    obtain ⟨rfl, rfl⟩ := eq_of_read hg
    obtain ⟨_, st₄, hnext, herror⟩ := returns_bind.mp hd
    obtain ⟨steps, hsteps, rfl⟩ := visits_of_delaySteps hm
    obtain ⟨jobs, hnext⟩ := visits_of_delayCallbacks x none true hnext
    obtain ⟨jobs', herror⟩ := visits_of_delayCallbacks x none true herror
    exact .chain hcls hu hsteps hnext herror

end Delaying
end JobWorker
