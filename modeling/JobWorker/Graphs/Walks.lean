import JobWorker.Graphs.Sharing

/-!
# Walks

The order in which `delay` reaches the schedulers that a delayable is attached to, in
objects that refer to each other freely (`job_worker/delay.py:120–165,240–331`). The
delayable is enqueued with the wiring of the scheduler that hands it on first; the wiring
that the others assign comes too late for its row.
-/

namespace JobWorker

open Delaying

/-- The loop over `roots`, the on_done callbacks of `owner` if there is one, when every
object is visited anew: it meets the objects `refs`, and hands `c` on behind `sources` in
this order. No delayable has a job, nothing is met below itself, and `c` is met as an
on_done callback only. -/
inductive Walk (heap : Ref → Scheduler) (c : Ref) :
    Option Ref → List Ref → List Ref → List Ref → Prop
  | nil {owner : Option Ref} : Walk heap c owner [] [] []
  | shared {s : Ref} {roots refs sources : List Ref} : Walk heap c (some s) roots refs sources →
      Walk heap c (some s) (c :: roots) refs (s :: sources)
  | delayable {owner : Option Ref} {r : Ref} {call : DelayableCall}
      {properties : DelayableProperties}
      {roots next error rest sources sources' sources'' : List Ref} :
      r ≠ c → (heap r).cls = .delayable call properties none → r ∉ next ++ error →
      Walk heap c (some r) (heap r).nextDelayables next sources →
      Walk heap c none (heap r).onErrorDelayables error sources' →
      Walk heap c owner roots rest sources'' →
      Walk heap c owner (r :: roots) (r :: (next ++ error) ++ rest)
        (sources ++ sources' ++ sources'')
  | compound {owner : Option Ref} {r : Ref}
      {delayables roots members next error rest sources₀ sources sources' sources'' : List Ref} :
      r ≠ c → (heap r).Comprises delayables → r ∉ members ++ (next ++ error) →
      Walk heap c none delayables members sources₀ →
      Walk heap c (some r) (heap r).nextDelayables next sources →
      Walk heap c none (heap r).onErrorDelayables error sources' →
      Walk heap c owner roots rest sources'' →
      Walk heap c owner (r :: roots) (r :: (members ++ (next ++ error)) ++ rest)
        (sources₀ ++ (sources ++ sources') ++ sources'')

namespace Session

/-- What the scheduler hands on to its callbacks is final. -/
def Offers (st : Session) (s : Ref) : Prop :=
  ∀ st', st.Extends st' → st'.prerequisites s = st.prerequisites s

/-- Behind the delayables among `refs` that have jobs everything has been delayed. -/
def Finished (st : Session) (heap : Ref → Scheduler) (refs : List Ref) : Prop :=
  ∀ y ∈ refs, (st.jobOf y).isSome = true → ∀ z ∈ (heap y).links, st.Covered z

/-- Nobody has handed `c` on, and its identity key is free. -/
def Unreached (env : DelayEnv) (heap : Ref → Scheduler) (c : Ref) (st : Session) : Prop :=
  st.heap c = heap c ∧
    ∀ k, (heap c).identityKey = some k → findByIdentityKey env.orm st.store k = none

/-- The job of `c` is new, and its row has the wiring that `s` hands on. -/
structure WiredBehind (c s : Ref) (st st' : Session) : Prop where
  offers : st'.Offers s
  row : ∃ u j row, st'.jobOf c = some j ∧ st.store.get? j = none ∧
    st'.store.get? j = some row ∧ Enqueued { st'.prerequisites s with graphUuid := u } row

/-- `c` has been handed on by the first of the sources, if there are any. -/
structure Hands (env : DelayEnv) (heap : Ref → Scheduler) (c : Ref) (sources : List Ref)
    (st st' : Session) : Prop where
  unreached : sources = [] → Unreached env heap c st'
  wired : ∀ s ∈ sources.head?, WiredBehind c s st st'

end Session

open Session

section Sources

variable {env : DelayEnv} {st st₀ st₁ st' : Session} {c s r p : Ref} {heap : Ref → Scheduler}
  {roots refs sources sources' : List Ref}

/-- What is final stays so. -/
theorem Session.Offers.mono (h : st.Offers s) (h' : st.Extends st') : st'.Offers s :=
  fun st₂ h₂ ↦ by rw [h st₂ (h'.trans h₂), h st' h']

/-- What is new is new from any earlier session. -/
theorem Session.WiredBehind.after (h : st.Extends st₁) (h' : WiredBehind c s st₁ st') :
    WiredBehind c s st st' := by
  obtain ⟨hoffers, u, j, row, hj, hnew, hrow, hcols⟩ := h'
  exact ⟨hoffers, u, j, row, hj, h.get?_eq_none hnew, hrow, hcols⟩

/-- Later calls change nothing of it. -/
theorem Session.WiredBehind.mono (h : WiredBehind c s st st₁) (h' : st₁.Extends st') :
    WiredBehind c s st st' := by
  obtain ⟨hoffers, u, j, row, hj, hnew, hrow, hcols⟩ := h
  refine ⟨hoffers.mono h', u, j, row, h'.jobs c j hj, hnew, h'.rows j row hrow, ?_⟩
  rwa [hoffers st' h']

/-- One call after the other: the first source of both is the first one that there is. -/
theorem Session.Hands.append (h : Hands env heap c sources st st₁)
    (h' : Unreached env heap c st₁ → Hands env heap c sources' st₁ st')
    (hkeeps : st.Extends st₁) (hkeeps' : st₁.Extends st') :
    Hands env heap c (sources ++ sources') st st' := by
  cases sources with
  | nil =>
    obtain ⟨hun, hwired⟩ := h' (h.unreached rfl)
    exact ⟨hun, fun s hs ↦ (hwired s hs).after hkeeps⟩
  | cons s sources => exact ⟨nofun, fun x hx ↦ (h.wired x hx).mono hkeeps'⟩

/-- What has finished stays so, and what is delayed since has finished too. -/
theorem Session.Finished.after {roots : List Ref} {jobs : List (Option JobId)}
    (h : st.Finished st₀.heap refs) (hst : st₀.Extends st) (h' : Settles roots jobs st st') :
    st'.Finished st₀.heap refs := by
  intro y hy hsome z hz
  cases hj : st.jobOf y with
  | none => exact h'.spreads y hj hsome z (hst.links y ▸ hz)
  | some j => exact (h y hy (by rw [hj]; rfl) z hz).mono h'.keeps

/-- Fewer objects. -/
theorem Session.Finished.subset {refs' : List Ref} (h : st.Finished heap refs)
    (hsub : ∀ a ∈ refs', a ∈ refs) : st.Finished heap refs' := fun y hy ↦ h y (hsub y hy)

/-- Nothing below delayed objects can hand `c` on when `c` has no job. -/
theorem Walk.eq_nil_of_covered {owner : Option Ref}
    (h : Walk st₀.heap c owner roots refs sources) (hst : st₀.Extends st)
    (hc : ¬ st.Covered c) (hroots : ∀ r ∈ roots, st.Covered r)
    (hfin : st.Finished st₀.heap refs) : sources = [] := by
  induction h with
  | nil => rfl
  | shared => exact absurd (hroots c List.mem_cons_self) hc
  | @delayable owner r call properties roots next error rest sources sources' sources'' _ hcls _ _ _
      _ ihNext ihError ih =>
    obtain ⟨hr, hroots⟩ := List.forall_mem_cons.mp hroots
    have hjob : (st.jobOf r).isSome = true := by
      cases hr with
      | delayable hj => rw [hj]; rfl
      | compound hcomp =>
        rcases (comprises_of_shape (hst.shape r) _).mp hcomp with h | h <;> cases hcls.symm.trans h
    have hlinks := hfin r (by simp) hjob
    rw [Scheduler.links, hcls] at hlinks
    rw [ihNext (fun z hz ↦ hlinks z (List.mem_append_left _ hz))
        (hfin.subset (by simp +contextual)),
      ihError (fun z hz ↦ hlinks z (List.mem_append_right _ hz))
        (hfin.subset (by simp +contextual)),
      ih hroots (hfin.subset (by simp +contextual))]
    rfl
  | @compound owner r delayables roots members next error rest sources₀ sources sources' sources'' _
      hcls _ _ _ _ _ ihMembers ihNext ihError ih =>
    obtain ⟨hr, hroots⟩ := List.forall_mem_cons.mp hroots
    have hlinks : ∀ z ∈ (st₀.heap r).links, st.Covered z := by
      cases hr with
      | delayable hj => 
        rw [jobOf_of_comprises ((comprises_of_shape (hst.shape r) _).mpr hcls)] at hj
        cases hj
      | compound _ hlinks => exact hst.links r ▸ hlinks
    have hlinks' : ∀ z ∈ delayables ++ ((st₀.heap r).nextDelayables ++
        (st₀.heap r).onErrorDelayables), st.Covered z := by
      unfold Scheduler.links at hlinks
      rcases hcls with hcls | hcls <;> rwa [hcls] at hlinks
    simp only [List.mem_append] at hlinks'
    rw [ihMembers (fun z hz ↦ hlinks' z (.inl hz)) (hfin.subset (by simp +contextual)),
      ihNext (fun z hz ↦ hlinks' z (.inr (.inl hz))) (hfin.subset (by simp +contextual)),
      ihError (fun z hz ↦ hlinks' z (.inr (.inr hz))) (hfin.subset (by simp +contextual)),
      ih hroots (hfin.subset (by simp +contextual))]
    rfl

/-- The objects of a walk have no jobs. -/
theorem Walk.jobOf_eq_none {owner : Option Ref} (h : Walk st.heap c owner roots refs sources) :
    ∀ y ∈ refs, st.jobOf y = none := by
  induction h with
  | nil => exact fun y hy ↦ by cases hy
  | shared _ ih => exact ih
  | @delayable _ r _ _ _ _ _ _ _ _ _ _ hcls _ _ _ _ ihN ihE ih =>
    simp only [List.cons_append, List.append_assoc, List.mem_cons, List.mem_append]
    rintro y (rfl | hy | hy | hy)
    · rw [jobOf, hcls]
    · exact ihN y hy
    · exact ihE y hy
    · exact ih y hy
  | compound _ hcomp _ _ _ _ _ ihM ihN ihE ih =>
    simp only [List.cons_append, List.append_assoc, List.mem_cons, List.mem_append]
    rintro y (rfl | hy | hy | hy | hy)
    · exact jobOf_of_comprises hcomp
    · exact ihM y hy
    · exact ihN y hy
    · exact ihE y hy
    · exact ih y hy

/-- The objects that a loop visits, but for `c`, are objects of the walk. -/
theorem Walk.mem_of_mem_roots {owner : Option Ref}
    (h : Walk heap c owner roots refs sources) {y : Ref} (hy : y ∈ roots) : y = c ∨ y ∈ refs := by
  induction h with
  | nil => cases hy
  | shared _ ih =>
    rcases List.mem_cons.mp hy with rfl | hy
    · exact .inl rfl
    · exact ih hy
  | delayable _ _ _ _ _ _ _ _ ih | compound _ _ _ _ _ _ _ _ _ _ ih =>
    rcases List.mem_cons.mp hy with rfl | hy
    · exact .inr (List.mem_append_left _ List.mem_cons_self)
    · exact (ih hy).imp_right (List.mem_append_right _)

/-- The sources, and the members of those that are groups or chains, have no jobs. -/
theorem Walk.source {owner : Option Ref} (h : Walk st.heap c owner roots refs sources)
    (hc : st.jobOf c = none) (hp : p ∈ sources) : owner = some p ∨ st.jobOf p = none ∧
      ∀ delayables, (st.heap p).Comprises delayables → ∀ d ∈ delayables, st.jobOf d = none := by
  induction h with
  | nil => cases hp
  | shared _ ih =>
    rcases List.mem_cons.mp hp with rfl | hp
    · exact .inl rfl
    · exact ih hp
  | @delayable _ r _ _ _ _ _ _ _ _ _ _ hcls _ _ _ _ ihN ihE ih =>
    simp only [List.append_assoc, List.mem_append] at hp
    rcases hp with hp | hp | hp
    · rcases ihN hp with hr | hp
      · obtain rfl := Option.some.inj hr
        refine .inr ⟨by rw [jobOf, hcls], fun delayables hcomp ↦ ?_⟩
        rcases hcomp with h | h <;> cases hcls.symm.trans h
      · exact .inr hp
    · exact .inr ((ihE hp).resolve_left fun h ↦ by cases h)
    · exact ih hp
  | @compound _ r delayables _ _ _ _ _ _ _ _ _ _ hcomp _ hM _ _ _ ihM ihN ihE ih =>
    simp only [List.append_assoc, List.mem_append] at hp
    rcases hp with hp | hp | hp | hp
    · exact .inr ((ihM hp).resolve_left fun h ↦ by cases h)
    · rcases ihN hp with hr | hp
      · obtain rfl := Option.some.inj hr
        refine .inr ⟨jobOf_of_comprises hcomp, fun delayables' hcomp' d hd ↦ ?_⟩
        rcases hM.mem_of_mem_roots (hcomp'.unique hcomp ▸ hd) with rfl | hd
        · exact hc
        · exact hM.jobOf_eq_none d hd
      · exact .inr hp
    · exact .inr ((ihE hp).resolve_left fun h ↦ by cases h)
    · exact ih hp

end Sources

/-! ### The traversal -/

/-- What is to be shown of a loop that follows a walk. -/
def WalkSpec (env : DelayEnv) (st₀ : Session) (c : Ref) (owner : Option Ref)
    (roots refs sources : List Ref) : Prop :=
  ∀ (fuel : Nat) (self : Ref) (wire : Wire) (previous : Option JobId) (first : Bool)
    (st st' : Session) (jobs : List (Option JobId)),
    (∀ g previous first (d : Scheduler), d.SameLinks (wire g previous first d)) →
    (∀ s ∈ owner, st.Offers s ∧ ∃ u, ∀ g previous first (d : Scheduler), d.context = {} →
      (wire g previous first d).context = { st.prerequisites s with graphUuid := u }) →
    st₀.Extends st → Unreached env st₀.heap c st → st.Finished st₀.heap refs →
    Visits (delay env fuel) self wire previous first roots st jobs st' →
    Hands env st₀.heap c sources st st'

/-- What is to be shown of one scheduler of a walk. -/
def VisitSpec (env : DelayEnv) (st₀ : Session) (c r : Ref) (refs sources : List Ref) : Prop :=
  ∀ (fuel : Nat) (st st' : Session) (job : Option JobId),
    st₀.Extends st → Unreached env st₀.heap c st → st.Finished st₀.heap refs →
    Returns (delay env fuel r) st job st' → Hands env st₀.heap c sources st st'

section Traversal

variable {env : DelayEnv} {st st₀ st₁ st' : Session} {c s r : Ref} {refs sources : List Ref}
  {call : DelayableCall} {properties : DelayableProperties}

/-- Nobody has delayed `c`. -/
theorem Session.Unreached.not_covered (h : Unreached env st₀.heap c st)
    (hc : (st₀.heap c).IsDelayable) (hnone : st₀.jobOf c = none) : ¬ st.Covered c := by
  intro hcovered
  cases hcovered with
  | delayable hj =>
    rw [jobOf_congr h.1, hnone] at hj
    cases hj
  | compound hcls =>
    obtain ⟨_, _, _, hd⟩ := hc
    rw [h.1] at hcls
    rcases hcls with hcls | hcls <;> cases hcls.symm.trans hd

/-- Wiring another object. -/
theorem Session.Unreached.wire {heap : Ref → Scheduler} {d : Scheduler}
    (h : Unreached env heap c st) (hr : r ≠ c) :
    Unreached env heap c { st with heap := Function.update st.heap r d } :=
  ⟨(Function.update_of_ne hr.symm _ _).trans h.1, h.2⟩

/-- A new uuid. -/
theorem Session.Unreached.of_eq {heap : Ref → Scheduler} (h : Unreached env heap c st)
    (heq : st'.heap = st.heap ∧ st'.store = st.store) : Unreached env heap c st' := by
  unfold Unreached
  rw [heq.1, heq.2]
  exact h

/-- `enqueue` of a delayable with another key. -/
theorem Session.Unreached.enqueueDelayable {heap : Ref → Scheduler} {u : Option Nat} {j : JobId}
    (h : Unreached env heap c st) (hr : r ≠ c)
    (hkey : ∀ k, (heap c).identityKey = some k →
      storedIdentityKey (properties.identityKey.resolved call) ≠ some k)
    (henq : Returns (Delaying.enqueueDelayable env r call properties u) st j st') :
    Unreached env heap c st' := by
  obtain ⟨args, s, henq, hargs, hs, hheap⟩ := enqueueDelayable_enqueue henq
  refine ⟨by rw [hheap, Function.update_of_ne hr.symm, h.1], fun k hk ↦ ?_⟩
  have hnone := h.2 k hk
  rcases enqueue_cases henq with ⟨heq, _⟩ | ⟨eta, _, _, hcreate⟩
  · rwa [hs, heq]
  · by_contra hn
    obtain ⟨i, hi⟩ := Option.ne_none_iff_exists'.mp hn
    obtain ⟨row, hrow, hsees, hrowkey, hactive⟩ := activeWith_of_findByIdentityKey hi
    rw [hs] at hrow
    rcases Store.get?_create_cases hcreate hrow with ⟨_, rfl⟩ | hrow
    · exact hkey k hk (hargs ▸ hrowkey)
    · rw [findByIdentityKey_eq_none hnone i row hrow hrowkey hactive] at hsees
      cases hsees

/-- A delayable whose key is free is enqueued with the wiring that it has. -/
theorem enqueued_of_delay (hmode : env.mustRunWithoutDelay = false)
    (hcls : (st.heap c).cls = .delayable call properties none)
    (hfree : ∀ k, (st.heap c).identityKey = some k → findByIdentityKey env.orm st.store k = none)
    {fuel : Nat} {job : Option JobId} (h : Returns (delay env fuel c) st job st') :
    ∃ j row, st'.jobOf c = some j ∧ st.store.get? j = none ∧ st'.store.get? j = some row ∧
      Enqueued (st.heap c).context row := by
  cases fuel with
  | zero => cases h
  | succ fuel =>
    have hjob := (settles_of_delay hmode h).jobs
    rw [List.map_singleton, List.singleton_inj] at hjob
    cases call_of_delay h with
    | known hk => rw [hcls] at hk; cases hk
    | group hk => rw [hcls] at hk; cases hk
    | chain hk => rw [hcls] at hk; cases hk
    | @delayable _ _ u j st₁ st₂ st₃ st₄ _ _ _ hk hu henq hnext herror hrun =>
      rw [hcls] at hk
      cases hk
      obtain rfl := eq_of_runWithoutDelay hrun hmode
      have heq := eq_of_jobGraphUuid hu
      obtain ⟨row, hcreate, hcols, _⟩ := enqueueDelayable_created henq fun k hk ↦ by
        rw [heq.2]
        exact hfree k (by rw [Scheduler.identityKey, hcls, ← hk])
      have hcallbacks := settles_callbacks (fun _ _ _ _ ↦ settles_of_delay hmode) hnext herror
        fun _ _ _ _ ↦ ⟨rfl, rfl, rfl⟩
      refine ⟨j, row, hjob.symm, ?_, hcallbacks.keeps.rows j row ?_, heq.1 ▸ hcols⟩
      · rw [← heq.2]
        exact Store.create_fresh hcreate
      · exact Store.get?_create_self hcreate

/-- `c` is wired by a scheduler that hands it on, and enqueued. -/
theorem wiredBehind_of_delay (hmode : env.mustRunWithoutDelay = false)
    (hcls : (st₀.heap c).cls = .delayable call properties none)
    (hunwired : (st₀.heap c).context = {}) {f : Scheduler → Scheduler} {u : Option Nat}
    {fuel : Nat} {job : Option JobId} (hlinks : ∀ d : Scheduler, d.SameLinks (f d))
    (hoffers : st.Offers s)
    (hwire : ∀ d : Scheduler, d.context = {} →
      (f d).context = { st.prerequisites s with graphUuid := u })
    (hun : Unreached env st₀.heap c st) (ha : Returns (assign c f) st () st₁)
    (h : Returns (delay env fuel c) st₁ job st') : WiredBehind c s st st' := by
  obtain ⟨hown, hstore, hwired⟩ : st₁.heap c = f (st₀.heap c) ∧ st₁.store = st.store ∧
      st.Extends st₁ := by
    cases ha
    refine ⟨?_, rfl, (settles_wire (hlinks _)).keeps⟩
    rw [← hun.1]
    exact Function.update_self _ _ _
  have hkey : (st₁.heap c).identityKey = (st₀.heap c).identityKey := by
    rw [hown, Scheduler.identityKey, Scheduler.identityKey, (hlinks _).cls]
  have hkeeps := hwired.trans (settles_of_delay hmode h).keeps
  obtain ⟨j, row, hj, hnew, hrow, hcols⟩ := enqueued_of_delay hmode
    (by rw [hown, (hlinks _).cls, hcls]) (fun k hk ↦ hstore ▸ hun.2 k (hkey ▸ hk)) h
  rw [hown, hwire _ hunwired] at hcols
  refine ⟨hoffers.mono hkeeps, u, j, row, hj, hstore ▸ hnew, hrow, ?_⟩
  rwa [hoffers st' hkeeps]

/-- A loop over nothing. -/
theorem walkSpec_nil {owner : Option Ref} : WalkSpec env st₀ c owner [] [] [] := by
  intro fuel self wire previous first st st' jobs _ _ _ hun _ h
  cases h
  exact ⟨fun _ ↦ hun, fun s hs ↦ by cases hs⟩

/-- A loop hands `c` on. -/
theorem walkSpec_shared (hmode : env.mustRunWithoutDelay = false)
    (hcls : (st₀.heap c).cls = .delayable call properties none)
    (hunwired : (st₀.heap c).context = {}) {roots : List Ref} :
    WalkSpec env st₀ c (some s) (c :: roots) refs (s :: sources) := by
  intro fuel self wire previous first st st' jobs hlinks howner _ hun _ h
  obtain ⟨hoffers, u, hwire⟩ := howner s rfl
  cases h with
  | cons ha hdelay hrest =>
    have hwired := wiredBehind_of_delay hmode hcls hunwired (hlinks _ _ _) hoffers
      (hwire _ _ _) hun ha hdelay
    have hkeeps := (settles_of_visits (fun _ _ _ _ ↦ settles_of_delay hmode) hrest hlinks).keeps
    refine ⟨nofun, fun x hx ↦ ?_⟩
    rw [List.head?_cons, Option.mem_def, Option.some.injEq] at hx
    exact hx ▸ hwired.mono hkeeps

/-- A loop visits another object. -/
theorem walkSpec_cons (hmode : env.mustRunWithoutDelay = false) {owner : Option Ref}
    {roots rest sources' : List Ref} (hr : r ≠ c) (hvisit : VisitSpec env st₀ c r refs sources)
    (hrest : WalkSpec env st₀ c owner roots rest sources') :
    WalkSpec env st₀ c owner (r :: roots) (refs ++ rest) (sources ++ sources') := by
  intro fuel self wire previous first st st' jobs hlinks howner hst hun hfin h
  cases h with
  | @cons _ job _ _ _ _ st₁ st₂ _ jobs ha hdelay hvisits =>
    have hwire : Settles [] [] st st₁ ∧ Unreached env st₀.heap c st₁ := by
      cases ha
      exact ⟨settles_wire (hlinks _ _ _ _), hun.wire hr⟩
    have hdelayed := settles_of_delay hmode hdelay
    have hboth := hwire.1.append hdelayed
    have hst₁ := hst.trans hwire.1.keeps
    have hst₂ := hst₁.trans hdelayed.keeps
    have hfin₁ := hfin.after hst hwire.1
    have hhands := hvisit fuel st₁ st₂ job hst₁ hwire.2
      (hfin₁.subset fun a ↦ List.mem_append_left _) hdelay
    have hkeeps := (settles_of_visits (fun _ _ _ _ ↦ settles_of_delay hmode) hvisits hlinks).keeps
    have hhands' : Hands env st₀.heap c sources st st₂ :=
      ⟨hhands.unreached, fun s hs ↦ (hhands.wired s hs).after hwire.1.keeps⟩
    refine hhands'.append (fun hun₂ ↦ ?_) hboth.keeps hkeeps
    refine hrest fuel self wire job false st₂ st' jobs hlinks (fun s hs ↦ ?_) hst₂ hun₂
      ((hfin₁.after hst₁ hdelayed).subset fun a ↦ List.mem_append_right _) hvisits
    obtain ⟨hoffers, u, hcontext⟩ := howner s hs
    refine ⟨hoffers.mono hboth.keeps, u, fun g previous first d hd ↦ ?_⟩
    rw [hcontext g previous first d hd, hoffers st₂ hboth.keeps]

/-- The callbacks of a scheduler: on_done callbacks may be `c`. -/
theorem hands_callbacks (hmode : env.mustRunWithoutDelay = false) {fuel : Nat} {wire : Wire}
    {F : Context → Context} {u : Option Nat} {nexts errors next error sources' : List Ref}
    {jobs jobs' : List (Option JobId)} (hN : WalkSpec env st₀ c (some r) nexts next sources)
    (hE : WalkSpec env st₀ c none errors error sources')
    (hnext : Visits (delay env fuel) r wire none true nexts st jobs st₁)
    (herror : Visits (delay env fuel) r wire.onError none true errors st₁ jobs' st')
    (hwire : ∀ g previous first, Rewires (wire g previous first) F) (hoffers : st.Offers r)
    (hF : F {} = { st.prerequisites r with graphUuid := u })
    (hst : st₀.Extends st) (hun : Unreached env st₀.heap c st)
    (hfin : st.Finished st₀.heap (next ++ error)) :
    Hands env st₀.heap c (sources ++ sources') st st' := by
  have hcall : ∀ x st job st', Returns (delay env fuel x) st job st' → Settles [x] [job] st st' :=
    fun _ _ _ _ ↦ settles_of_delay hmode
  have hlinks : ∀ g previous first (d : Scheduler), d.SameLinks (wire g previous first d) :=
    fun g previous first ↦ (hwire g previous first).sameLinks
  have hlinks' : ∀ g previous first (d : Scheduler),
      d.SameLinks (wire.onError g previous first d) :=
    fun g previous first ↦ (rewires_onError (hwire g previous first)).sameLinks
  have hcontext (g : Scheduler) (previous : Option JobId) (first : Bool) (d : Scheduler)
      (hd : d.context = {}) :
      (wire g previous first d).context = { st.prerequisites r with graphUuid := u } := by
    rw [(hwire g previous first).context, hd, hF]
  have hloop := settles_of_visits hcall hnext hlinks
  have hhands := hN fuel r wire none true st st₁ jobs hlinks
    (fun s hs ↦ Option.some.inj hs ▸ ⟨hoffers, u, hcontext⟩) hst hun
    (hfin.subset fun a ↦ List.mem_append_left _) hnext
  refine hhands.append (fun hun₁ ↦ ?_) hloop.keeps (settles_of_visits hcall herror hlinks').keeps
  exact hE fuel r wire.onError none true st₁ st' jobs' hlinks' (fun s hs ↦ by cases hs)
    (hst.trans hloop.keeps) hun₁
    ((hfin.after hst hloop).subset fun a ↦ List.mem_append_right _) herror

/-- A delayable hands its job on. -/
theorem prerequisites_of_jobOf {j : JobId} (h : st.jobOf r = some j) :
    st.prerequisites r = { parentJobId := some j } := by
  obtain ⟨_, _, _, hcls⟩ := isDelayable_of_jobOf h
  rw [jobOf, hcls] at h
  cases h
  rw [prerequisites, hcls]

/-- A group hands the jobs of its members on. -/
theorem prerequisites_of_group {delayables : List Ref} (h : (st.heap r).cls = .group delayables) :
    st.prerequisites r = { dependencyJobIds := some (delayables.filterMap st.jobOf) } := by
  rw [prerequisites, h]

/-- A chain hands the job of its last step on. -/
theorem prerequisites_of_chain {delayables : List Ref} (h : (st.heap r).cls = .chain delayables) :
    st.prerequisites r = { parentJobId := delayables.getLast?.bind st.jobOf } := by
  rw [prerequisites, h]

/-- The jobs of its members are final behind the loop of a group or chain. -/
theorem offers_of_comprises {delayables : List Ref} (h : (st.heap r).Comprises delayables)
    (hcovered : ∀ x ∈ delayables, st.Covered x) : st.Offers r := by
  intro st' h'
  have hjobs : ∀ x ∈ delayables, st'.jobOf x = st.jobOf x := fun x hx ↦ h'.jobOf_eq (hcovered x hx)
  rcases h with h | h
  · have hcls : (st'.heap r).cls = .group delayables := (group_of_shape (h'.shape r) _).mpr h
    rw [prerequisites_of_group h, prerequisites_of_group hcls, List.filterMap_congr hjobs]
  · have hcls : (st'.heap r).cls = .chain delayables := (chain_of_shape (h'.shape r) _).mpr h
    rw [prerequisites_of_chain h, prerequisites_of_chain hcls,
      Option.bind_congr fun x hx ↦ hjobs x (List.mem_of_getLast? hx)]

/-- A delayable that is visited. -/
theorem visitSpec_delayable (hmode : env.mustRunWithoutDelay = false)
    (hc : (st₀.heap c).IsDelayable) (hnone : st₀.jobOf c = none) (hr : r ≠ c)
    (hcls : (st₀.heap r).cls = .delayable call properties none)
    (hkey : ∀ k, (st₀.heap c).identityKey = some k → (st₀.heap r).identityKey ≠ some k)
    {next error sources' : List Ref} (hacyclic : r ∉ next ++ error)
    (hwalkN : Walk st₀.heap c (some r) (st₀.heap r).nextDelayables next sources)
    (hwalkE : Walk st₀.heap c none (st₀.heap r).onErrorDelayables error sources')
    (hN : WalkSpec env st₀ c (some r) (st₀.heap r).nextDelayables next sources)
    (hE : WalkSpec env st₀ c none (st₀.heap r).onErrorDelayables error sources') :
    VisitSpec env st₀ c r (r :: (next ++ error)) (sources ++ sources') := by
  intro fuel st st' job hst hun hfin h
  have hnot {delayables : List Ref} (hcomp : (st.heap r).Comprises delayables) : False := by
    rcases (comprises_of_shape (hst.shape r) _).mp hcomp with h | h <;> cases hcls.symm.trans h
  cases fuel with
  | zero => cases h
  | succ fuel =>
    cases call_of_delay h with
    | group hk => exact (hnot (.inl hk)).elim
    | chain hk => exact (hnot (.inr hk)).elim
    | @known _ _ j hk =>
      -- An earlier call has delayed it, so nothing below it hands `c` on.
      have hlinks := hfin r List.mem_cons_self (by rw [jobOf, hk]; rfl)
      rw [Scheduler.links, hcls] at hlinks
      have hfree : ¬ st.Covered c := hun.not_covered hc hnone
      rw [hwalkN.eq_nil_of_covered hst hfree (fun z hz ↦ hlinks z (List.mem_append_left _ hz))
          (hfin.subset (by simp +contextual)),
        hwalkE.eq_nil_of_covered hst hfree (fun z hz ↦ hlinks z (List.mem_append_right _ hz))
          (hfin.subset (by simp +contextual))]
      exact ⟨fun _ ↦ hun, fun s hs ↦ by cases hs⟩
    | @delayable call' properties' u j st₁ st₂ st₃ st₄ _ _ _ hk hu henq hnext herror hrun =>
      obtain rfl := eq_of_runWithoutDelay hrun hmode
      have heq := eq_of_jobGraphUuid hu
      have hstart := settles_of_eq heq
      obtain ⟨hkeeps, hjob, hother⟩ := extends_enqueueDelayable (heq.1 ▸ hk) henq
      have hprerequisites := prerequisites_of_jobOf hjob
      have hoffers : st₂.Offers r := fun st₃ h₃ ↦ by
        rw [hprerequisites, prerequisites_of_jobOf (h₃.jobs r j hjob)]
      have hun₂ : Unreached env st₀.heap c st₂ := by
        refine (hun.of_eq heq).enqueueDelayable hr (fun k hk' heqk ↦ hkey k hk' ?_) henq
        rw [← identityKey_of_shape (hst.shape r), Scheduler.identityKey, hk]
        exact heqk
      have hfin₂ : st₂.Finished st₀.heap (next ++ error) := by
        intro y hy hsome z hz
        have hyr : y ≠ r := fun h ↦ hacyclic (h ▸ hy)
        rw [jobOf_congr (hother y hyr), jobOf_congr (congrFun heq.1 y)] at hsome
        exact (hfin y (List.mem_cons_of_mem _ hy) hsome z hz).mono (hstart.keeps.trans hkeeps)
      rw [hst.nextDelayables] at hnext
      rw [hst.onErrorDelayables] at herror
      have hhands := hands_callbacks hmode hN hE hnext herror (rewires_wireCallback u j) hoffers
        (by rw [hprerequisites]) (hst.trans (hstart.keeps.trans hkeeps)) hun₂ hfin₂
      exact ⟨hhands.unreached, fun s hs ↦ (hhands.wired s hs).after (hstart.keeps.trans hkeeps)⟩

/-- The loops of a group or chain: over its members or steps, then over the callbacks. -/
theorem hands_compound (hmode : env.mustRunWithoutDelay = false) {fuel : Nat} {wire₀ wire : Wire}
    {F : Context → Context} {delayables members next error sources₀ sources' : List Ref}
    {jobs jobs' jobs'' : List (Option JobId)} {st₂ st₃ : Session}
    (hM : WalkSpec env st₀ c none delayables members sources₀)
    (hN : WalkSpec env st₀ c (some r) (st₀.heap r).nextDelayables next sources)
    (hE : WalkSpec env st₀ c none (st₀.heap r).onErrorDelayables error sources')
    (hcomp : (st₀.heap r).Comprises delayables)
    (heq : st₁.heap = st.heap ∧ st₁.store = st.store)
    (hmembers : Visits (delay env fuel) r wire₀ none true delayables st₁ jobs st₂)
    (hnext : Visits (delay env fuel) r wire none true (st₂.heap r).nextDelayables st₂ jobs' st₃)
    (herror : Visits (delay env fuel) r wire.onError none true (st₂.heap r).onErrorDelayables
      st₃ jobs'' st')
    (hlinks₀ : ∀ g previous first (d : Scheduler), d.SameLinks (wire₀ g previous first d))
    (hwire : ∀ g previous first, Rewires (wire g previous first) F)
    (hF : jobs = delayables.map st₂.jobOf → st.Extends st₂ →
      ∃ u, F {} = { st₂.prerequisites r with graphUuid := u })
    (hst : st₀.Extends st) (hun : Unreached env st₀.heap c st)
    (hfin : st.Finished st₀.heap (r :: (members ++ (next ++ error)))) :
    Hands env st₀.heap c (sources₀ ++ (sources ++ sources')) st st' := by
  have hcall : ∀ x st job st', Returns (delay env fuel x) st job st' → Settles [x] [job] st st' :=
    fun _ _ _ _ ↦ settles_of_delay hmode
  have hstart := settles_of_eq heq
  have hloop := settles_of_visits hcall hmembers hlinks₀
  have hkeeps := hstart.keeps.trans hloop.keeps
  have hst₁ := hst.trans hstart.keeps
  have hst₂ := hst.trans hkeeps
  have hfin₁ := (hfin.subset fun a ↦ List.mem_cons_of_mem r).after hst hstart
  have hcomp₂ := (comprises_of_shape (hst₂.shape r) delayables).mpr hcomp
  have hmembersHand := hM fuel r wire₀ none true st₁ st₂ jobs hlinks₀ (fun s hs ↦ by cases hs)
    hst₁ (hun.of_eq heq) (hfin₁.subset fun a ↦ List.mem_append_left _) hmembers
  have hcallbacks := settles_callbacks hcall hnext herror fun g previous first ↦
    (hwire g previous first).sameLinks
  rw [hst₂.nextDelayables] at hnext
  rw [hst₂.onErrorDelayables] at herror
  have hhands : Hands env st₀.heap c (sources₀ ++ (sources ++ sources')) st₁ st' := by
    refine hmembersHand.append (fun hun₂ ↦ ?_) hloop.keeps hcallbacks.keeps
    obtain ⟨u, hF⟩ := hF hloop.jobs hkeeps
    exact hands_callbacks hmode hN hE hnext herror hwire
      (offers_of_comprises hcomp₂ hloop.covered) hF hst₂ hun₂
      ((hfin₁.after hst₁ hloop).subset fun a ↦ List.mem_append_right _)
  exact ⟨hhands.unreached, fun s hs ↦ (hhands.wired s hs).after hstart.keeps⟩

/-- A group or chain that is visited, whether or not it has been before. -/
theorem visitSpec_compound (hmode : env.mustRunWithoutDelay = false)
    {delayables members next error sources₀ sources' : List Ref}
    (hcomp : (st₀.heap r).Comprises delayables)
    (hM : WalkSpec env st₀ c none delayables members sources₀)
    (hN : WalkSpec env st₀ c (some r) (st₀.heap r).nextDelayables next sources)
    (hE : WalkSpec env st₀ c none (st₀.heap r).onErrorDelayables error sources') :
    VisitSpec env st₀ c r (r :: (members ++ (next ++ error)))
      (sources₀ ++ (sources ++ sources')) := by
  intro fuel st st' job hst hun hfin h
  have hcomp' := (comprises_of_shape (hst.shape r) delayables).mpr hcomp
  cases fuel with
  | zero => cases h
  | succ fuel =>
    cases call_of_delay h with
    | known hk => rcases hcomp' with h | h <;> cases hk.symm.trans h
    | delayable hk => rcases hcomp' with h | h <;> cases hk.symm.trans h
    | @group _ u ids st₁ st₂ st₃ _ jobs jobs' hk hu hmembers hnext herror =>
      obtain rfl := hcomp'.unique (.inl hk)
      refine hands_compound hmode hM hN hE hcomp (eq_of_graphUuidOf hu) hmembers hnext herror
        (fun _ _ _ _ ↦ ⟨rfl, rfl, rfl⟩) (fun _ _ _ ↦ rewires_wireNext u ids)
        (fun hjobs hkeeps ↦ ⟨some u, ?_⟩) hst hun hfin
      rw [prerequisites_of_group ((group_of_shape (hkeeps.shape r) _).mpr hk),
        filterMap_of_map_some hjobs]
    | @chain _ u st₁ st₂ st₃ _ steps jobs jobs' hk hu hsteps hnext herror =>
      obtain rfl := hcomp'.unique (.inr hk)
      refine hands_compound hmode hM hN hE hcomp (eq_of_graphUuidOf hu) hsteps hnext herror
        (fun _ _ _ _ ↦ ⟨rfl, rfl, rfl⟩)
        (rewires_wireAfterChain u (steps.getLast?.getD none)) (fun hjobs hkeeps ↦ ⟨some u, ?_⟩)
        hst hun hfin
      rw [prerequisites_of_chain ((chain_of_shape (hkeeps.shape r) _).mpr hk), hjobs, last_of_map]
      cases delayables.getLast?.bind st₂.jobOf <;> rfl

/-- The loops of `delay` follow the walk: `c` is handed on first by its first source. By
induction over the walk. -/
theorem walkSpec_of_walk (hmode : env.mustRunWithoutDelay = false)
    (hcls : (st₀.heap c).cls = .delayable call properties none)
    (hunwired : (st₀.heap c).context = {}) {owner : Option Ref} {roots : List Ref}
    (h : Walk st₀.heap c owner roots refs sources)
    (hkeys : ∀ a ∈ refs, ∀ k, (st₀.heap c).identityKey = some k →
      (st₀.heap a).identityKey ≠ some k) :
    WalkSpec env st₀ c owner roots refs sources := by
  have hc : (st₀.heap c).IsDelayable := ⟨_, _, _, hcls⟩
  have hnone : st₀.jobOf c = none := by rw [jobOf, hcls]
  induction h with
  | nil => exact walkSpec_nil
  | shared => exact walkSpec_shared hmode hcls hunwired
  | delayable hr hclsr hacyclic hN hE _ ihN ihE ih =>
    refine walkSpec_cons hmode hr ?_ (ih fun a ha ↦ hkeys a (List.mem_append_right _ ha))
    refine visitSpec_delayable hmode hc hnone hr hclsr (hkeys _ (by simp)) hacyclic hN hE
      (ihN fun a ha ↦ hkeys a ?_) (ihE fun a ha ↦ hkeys a ?_) <;> simp [ha]
  | compound hr hcomp _ _ _ _ _ ihM ihN ihE ih =>
    refine walkSpec_cons hmode hr ?_ (ih fun a ha ↦ hkeys a (List.mem_append_right _ ha))
    refine visitSpec_compound hmode hcomp (ihM fun a ha ↦ hkeys a ?_)
      (ihN fun a ha ↦ hkeys a ?_) (ihE fun a ha ↦ hkeys a ?_) <;> simp [ha]

end Traversal

end JobWorker
