import JobWorker.DelayLog
import JobWorker.Graphs.Forest
import JobWorker.Runs.IdentityKeys
import Mathlib.Logic.Relation

/-!
# Trees without the queue

With `must_run_without_delay` a call of `delay` executes every job of its tree at once, each
one behind the calls for its callbacks (`job_worker/delay.py:154–164`). So the first method to
run is that of the first leaf, before that of its parent.
-/

namespace JobWorker

open Relational Delaying

/-! ### What is to be shown -/

/-- The callbacks of a scheduler, in the order of its loops; `delay.py:154–162`. -/
def Scheduler.callbacks (d : Scheduler) : List Ref := d.nextDelayables ++ d.onErrorDelayables

/-- A tree of delayables as it is built: no one has delayed or wired them. -/
structure DelayableTree (heap : Ref → Scheduler) (root : Ref) (refs : List Ref) : Prop where
  forest : Forest heap [root] refs
  nodup : refs.Nodup
  isDelayable : ∀ a ∈ refs, (heap a).IsDelayable
  unwired : ∀ a ∈ refs, (heap a).context = {}

/-- The executions of a log respect the edges between `refs`: a method runs behind that of its
parent, the on_done callbacks of a parent that succeeds run once, and its on_error callbacks
not at all. -/
structure RespectsGraph (heap : Ref → Scheduler) (refs : List Ref) (log : List MethodCall) :
    Prop where
  order : ∀ p ∈ refs, ∀ c ∈ (heap p).callbacks, ∀ before call after,
    log = before ++ call :: after → call.delayable = c → ∃ parent ∈ before, parent.delayable = p
  onDone : ∀ p ∈ refs, ⟨p, true⟩ ∈ log → ∀ c ∈ (heap p).nextDelayables,
    log.countP (·.delayable = c) = 1
  onError : ∀ p ∈ refs, ⟨p, true⟩ ∈ log → ∀ c ∈ (heap p).onErrorDelayables,
    ∀ call ∈ log, call.delayable ≠ c

/-- `c` is the first callback of `p`. -/
def FirstCallback (heap : Ref → Scheduler) (p c : Ref) : Prop :=
  (heap p).callbacks.head? = some c

/-- `enqueue` has nothing against a call: the registry has the model, the method is no dunder
method, and the caller sees the job that is active with the identity key, if there is one;
`models/queue_job.py:964–1000`. -/
structure Store.Accepts (env : OrmEnv) (s : Store) (modelName methodName : String)
    (identityKey : Option IdentityKey) : Prop where
  named : modelName ≠ ""
  registered : env.hasModel modelName = true
  allowed : ¬ (methodName.startsWith "__" = true ∧ methodName.endsWith "__" = true)
  visible : ∀ k, identityKey = some k → ∀ i r, s.get? i = some r → r.identityKey = some k →
    r.state.isActive = true → env.sees i r = true

/-- A delayable can be enqueued: it has a method, and `enqueue` accepts it. -/
def Store.AcceptsDelayable (env : OrmEnv) (s : Store) (d : Scheduler) : Prop :=
  ∃ call properties job method, d.cls = .delayable call properties job ∧
    call.jobMethod = some method ∧ s.Accepts env call.modelName method d.identityKey

/-- The record rules show a caller the jobs that it has enqueued in its company;
`security/record_rules.xml:3–30`. -/
def OrmEnv.SeesOwn (env : OrmEnv) : Prop :=
  ∀ i r, r.userId = env.userId → r.companyId = env.companyId → env.sees i r = true

/-- So they do for every caller that works in one of its companies. -/
theorem Caller.seesOwn {c : Caller} {company : Nat} (h : company ∈ c.companyIds) :
    (c.env company).SeesOwn := by
  intro i r huser hcompany
  have hr : r.userId = some c.user ∧ r.companyId = some company := ⟨huser, hcompany⟩
  simp [env, sees, hr, h]

/-! ### When enqueue accepts a call -/

section Enqueue

variable {env : OrmEnv} {now : Time} {s s' : Store} {a : EnqueueArgs}

/-- Without `scheduled_at` there is no conflict. -/
theorem resolveEta_none (eta : Option Eta) : resolveEta eta none = .ok eta := by
  cases eta <;> rfl

/-- `enqueue` succeeds when it accepts the call, if the parent is there. -/
theorem enqueue_isOk_iff (hscheduled : a.scheduledAt = none)
    (hparent : ∀ p, a.parentId = some p → (s.get? p).isSome = true) :
    (∃ out, enqueue env now s a = .ok out) ↔
      s.Accepts env a.modelName a.methodName (storedIdentityKey a.identityKey) := by
  have hfiltered (p : JobId) (hp : a.parentId.filter (· ≠ 0) = some p) :
      (s.get? p).isSome = true :=
    hparent p (Option.filter_eq_some_iff.mp hp).1
  unfold enqueue
  split
  · next hmodel =>
    refine iff_of_false nofun fun h ↦ ?_
    rcases hmodel with hmodel | hmodel
    · exact h.named hmodel
    · cases h.registered.symm.trans hmodel
  · next hmodel =>
    rw [not_or, Bool.not_eq_false] at hmodel
    split
    · next hdunder => exact iff_of_false nofun fun h ↦ h.allowed hdunder
    · next hdunder =>
      rw [hscheduled, resolveEta_none]
      cases hfind : (storedIdentityKey a.identityKey).bind (findByIdentityKey env s) with
      | some existing =>
        obtain ⟨key, hkey, hfind⟩ := Option.bind_eq_some_iff.mp hfind
        obtain ⟨q, hq, hsees, hqkey, hqactive⟩ := activeWith_of_findByIdentityKey hfind
        refine iff_of_true ⟨_, rfl⟩ ⟨hmodel.1, hmodel.2, hdunder, fun k hk i r hr hrkey hr' ↦ ?_⟩
        obtain rfl := Option.some.inj (hkey.symm.trans hk)
        -- At most one job is active with the key.
        obtain rfl := s.identityKeyActiveUniq i existing r q hr hq
          ⟨by rw [hrkey]; rfl, hrkey.trans hqkey.symm, hr', hqactive⟩
        obtain rfl := Option.some.inj (hr.symm.trans hq)
        exact hsees
      | none =>
        refine (Store.exists_create_iff hfiltered).trans ⟨fun h ↦ ?_, fun h i r hr hc ↦ ?_⟩
        · refine ⟨hmodel.1, hmodel.2, hdunder, fun k hk i r hr hrkey hr' ↦ ?_⟩
          exact absurd ⟨by rw [hrkey]; rfl, hrkey.trans hk.symm, hr',
            isActive_enqueueVals env now a _⟩ (h i r hr)
        · obtain ⟨hsome, hkey, hr', _⟩ := hc
          obtain ⟨k, hk⟩ := Option.isSome_iff_exists.mp hsome
          have hstored : storedIdentityKey a.identityKey = some k := hkey.symm.trans hk
          rw [hstored] at hfind
          have hsees := findByIdentityKey_eq_none hfind i r hr hk hr'
          cases (h.visible k hstored i r hr hk hr').symm.trans hsees

end Enqueue

/-! ### The first execution -/

/-- The objects `refs` are as they were built but for their wiring, and behind the rows of `s`
there are only rows that the caller sees. -/
structure Intact (env : OrmEnv) (heap : Ref → Scheduler) (s : Store) (refs : List Ref)
    (st : Session) : Prop where
  objects : ∀ a ∈ refs, (heap a).SameLinks (st.heap a)
  rows : ∀ i r, s.get? i = some r → st.store.get? i = some r
  own : ∀ i r, st.store.get? i = some r → s.get? i = some r ∨ env.sees i r = true

/-- The parent of an object has a row. -/
def Session.ParentKnown (st : Session) (r : Ref) : Prop :=
  ∀ p, (st.heap r).parentJobId = some p → (st.store.get? p).isSome = true

section Intact

variable {env : DelayEnv} {heap : Ref → Scheduler} {s : Store} {refs refs' : List Ref}
  {st st' : Session} {r : Ref} {call : DelayableCall} {properties : DelayableProperties}
  {graphUuid : Option Nat} {job : JobId}

/-- Fewer objects. -/
theorem Intact.mono (h : Intact env.orm heap s refs st) (hsub : ∀ a ∈ refs', a ∈ refs) :
    Intact env.orm heap s refs' st :=
  ⟨fun a ha ↦ h.objects a (hsub a ha), h.rows, h.own⟩

/-- `enqueue` accepts what it has accepted in the beginning. -/
theorem Intact.accepts_iff (h : Intact env.orm heap s refs st) {modelName methodName : String}
    {identityKey : Option IdentityKey} :
    st.store.Accepts env.orm modelName methodName identityKey ↔
      s.Accepts env.orm modelName methodName identityKey := by
  constructor
  · intro ha
    exact ⟨ha.named, ha.registered, ha.allowed, fun k hk i r hr ↦
      ha.visible k hk i r (h.rows i r hr)⟩
  · intro ha
    refine ⟨ha.named, ha.registered, ha.allowed, fun k hk i r hr hkey hactive ↦ ?_⟩
    rcases h.own i r hr with hr | hsees
    · exact ha.visible k hk i r hr hkey hactive
    · exact hsees

/-- A delayable can be enqueued when it could be in the beginning. -/
theorem Intact.acceptsDelayable_iff (h : Intact env.orm heap s refs st) (hr : r ∈ refs) :
    st.store.AcceptsDelayable env.orm (st.heap r) ↔ s.AcceptsDelayable env.orm (heap r) := by
  have hkey : (st.heap r).identityKey = (heap r).identityKey := by
    rw [Scheduler.identityKey, Scheduler.identityKey, (h.objects r hr).cls]
  unfold Store.AcceptsDelayable
  simp only [(h.objects r hr).cls, hkey, h.accepts_iff]

/-- Wiring an object. -/
theorem Intact.assign {f : Scheduler → Scheduler} (h : Intact env.orm heap s refs st)
    (hf : ∀ d : Scheduler, d.SameLinks (f d)) (h' : Returns (assign r f) st () st') :
    Intact env.orm heap s refs st' := by
  cases h'
  refine ⟨fun a ha ↦ ?_, h.rows, h.own⟩
  have hlinks := (hf (st.heap r)).update a
  have hbuilt := h.objects a ha
  exact ⟨hlinks.cls.trans hbuilt.cls, hlinks.nextDelayables.trans hbuilt.nextDelayables,
    hlinks.onErrorDelayables.trans hbuilt.onErrorDelayables⟩

/-- Enqueueing another object. -/
theorem Intact.enqueueDelayable (h : Intact env.orm heap s refs st) (hsees : env.orm.SeesOwn)
    (hr : r ∉ refs) (h' : Returns (enqueueDelayable env r call properties graphUuid) st job st') :
    Intact env.orm heap s refs st' := by
  obtain ⟨args, s', henq, _, rfl, hheap⟩ := enqueueDelayable_enqueue h'
  refine ⟨fun a ha ↦ ?_, fun i row hrow ↦ ?_, fun i row hrow ↦ ?_⟩
  · rw [hheap, Function.update_of_ne (ne_of_mem_of_not_mem ha hr)]
    exact h.objects a ha
  · rcases enqueue_cases henq with ⟨hsame, _⟩ | ⟨_, _, _, hcreate⟩
    · rw [hsame]
      exact h.rows i row hrow
    · exact Store.get?_create_of_some hcreate (h.rows i row hrow)
  · rcases enqueue_cases henq with ⟨hsame, _⟩ | ⟨_, _, _, hcreate⟩
    · rw [hsame] at hrow
      exact h.own i row hrow
    · rcases Store.get?_create_cases hcreate hrow with ⟨_, rfl⟩ | hrow
      · exact .inr (hsees i _ rfl rfl)
      · exact h.own i row hrow

/-- The call of `enqueue` for a delayable. -/
theorem run_enqueueDelayable (env : DelayEnv) (r : Ref) (call : DelayableCall)
    (properties : DelayableProperties) (graphUuid : Option Nat) (st : Session) :
    (enqueueDelayable env r call properties graphUuid st).run =
      match call.jobMethod with
      | none => some (.error (.valueError "No method set on the Delayable"))
      | some method =>
        match enqueue env.orm env.now st.store
          (delayableArgs env.now call method properties graphUuid (st.heap r)) with
        | .error e => some (.error (.orm e))
        | .ok (s, job) => some (.ok (job, {
            st with
            heap := Function.update st.heap r
              { st.heap r with cls := .delayable call properties (some job) }
            store := s })) := by
  unfold enqueueDelayable
  cases hmethod : call.jobMethod with
  | none => rfl
  | some method =>
    have hread : (read r st).run = some (.ok (st.heap r, st)) := rfl
    simp only [run_bind, hread, run_onStore]
    cases enqueue env.orm env.now st.store
        (delayableArgs env.now call method properties graphUuid (st.heap r)) <;> rfl

/-- A delayable is enqueued when it can be, and otherwise the call raises. -/
theorem enqueueDelayable_accepts (env : DelayEnv) (graphUuid : Option Nat)
    (hcls : (st.heap r).cls = .delayable call properties none)
    (hparent : st.ParentKnown r) :
    (st.store.AcceptsDelayable env.orm (st.heap r) →
      ∃ job st', Returns (enqueueDelayable env r call properties graphUuid) st job st') ∧
    (¬ st.store.AcceptsDelayable env.orm (st.heap r) →
      ∃ e, (enqueueDelayable env r call properties graphUuid st).run = some (.error e)) := by
  have hkey : (st.heap r).identityKey =
      storedIdentityKey (properties.identityKey.resolved call) := by
    rw [Scheduler.identityKey, hcls]
  unfold Returns
  rw [run_enqueueDelayable]
  cases hmethod : call.jobMethod with
  | none =>
    refine ⟨?_, fun _ ↦ ⟨_, rfl⟩⟩
    rintro ⟨call', _, _, method, hcls', hsome, _⟩
    obtain ⟨rfl, _⟩ := SchedulerClass.delayable.inj (hcls.symm.trans hcls')
    cases hmethod.symm.trans hsome
  | some method =>
    have haccepts : st.store.AcceptsDelayable env.orm (st.heap r) ↔
        ∃ out, enqueue env.orm env.now st.store
          (delayableArgs env.now call method properties graphUuid (st.heap r)) = .ok out := by
      rw [enqueue_isOk_iff (s := st.store)
        (a := delayableArgs env.now call method properties graphUuid (st.heap r)) rfl hparent]
      constructor
      · rintro ⟨call', _, _, method', hcls', hsome, h⟩
        obtain ⟨rfl, _⟩ := SchedulerClass.delayable.inj (hcls.symm.trans hcls')
        obtain rfl := Option.some.inj (hmethod.symm.trans hsome)
        exact hkey ▸ h
      · intro h
        exact ⟨call, properties, none, method, hcls, hmethod, hkey ▸ h⟩
    rw [haccepts]
    dsimp only
    cases enqueue env.orm env.now st.store
        (delayableArgs env.now call method properties graphUuid (st.heap r)) with
    | error e =>
      refine ⟨?_, fun _ ↦ ⟨.orm e, rfl⟩⟩
      rintro ⟨_, h⟩
      cases h
    | ok out =>
      refine ⟨fun _ ↦ ⟨out.2, ?_⟩, fun h ↦ absurd ⟨out, rfl⟩ h⟩
      exact ⟨_, rfl⟩

end Intact

/-- The objects behind `r` on the way to a leaf: its first callback, the first callback of
that one, and so on. -/
def FirstPath (heap : Ref → Scheduler) : Ref → Ref → Prop :=
  Relation.ReflTransGen (FirstCallback heap)

/-- Under the calls for the objects `part` a call for `r` executes the method of the leaf
behind it first, unless an object on the way cannot be enqueued. -/
structure Opens (env : OrmEnv) (heap : Ref → Scheduler) (s : Store) (part : List Ref) (r : Ref)
    {α : Type} (m : Logged α) (st : Session) : Prop where
  fails : (∃ a, FirstPath heap r a ∧ ¬ s.AcceptsDelayable env (heap a)) → m.Fails st
  begins : (∀ a, FirstPath heap r a → s.AcceptsDelayable env (heap a)) →
    ∃ call, m.Begins st call ∧ (call.delayable = r ∧ (heap r).callbacks = [] ∨
      ∃ p ∈ part, call.delayable ∈ (heap p).callbacks)

section Opens

variable {env : DelayEnv} {heap : Ref → Scheduler} {s : Store} {part part' : List Ref} {r c : Ref}
  {α β : Type} {m : Logged α} {f : α → Logged β} {st st' : Session}

/-- A call at the head of a sequence. -/
theorem Opens.bind (h : Opens env.orm heap s part r m st) :
    Opens env.orm heap s part r (m >>= f) st where
  fails hn := (h.fails hn).bind
  begins ha := by
    obtain ⟨call, hcall, hleaf⟩ := h.begins ha
    exact ⟨call, hcall.bind, hleaf⟩

/-- The call for the first callback stands for that of its parent. -/
theorem Opens.of_firstCallback (h : Opens env.orm heap s part c m st)
    (hc : FirstCallback heap r c) (hr : s.AcceptsDelayable env.orm (heap r))
    (hsub : ∀ a ∈ part, a ∈ part') (hmem : r ∈ part') :
    Opens env.orm heap s part' r m st where
  fails := by
    rintro ⟨a, ha, hn⟩
    rcases ha.cases_head with rfl | ⟨c', hc', ha⟩
    · exact absurd hr hn
    · obtain rfl := Option.some.inj (hc.symm.trans hc')
      exact h.fails ⟨a, ha, hn⟩
  begins hall := by
    obtain ⟨call, hcall, ⟨rfl, _⟩ | ⟨p, hp, hmem'⟩⟩ :=
      h.begins fun a ha ↦ hall a (.head hc ha)
    · exact ⟨call, hcall, .inr ⟨r, hmem, List.mem_of_mem_head? hc⟩⟩
    · exact ⟨call, hcall, .inr ⟨p, hsub p hp, hmem'⟩⟩

/-- The same call. -/
theorem Opens.congr {m' : Logged α} (h : Opens env.orm heap s part r m' st') (heq : m st = m' st') :
    Opens env.orm heap s part r m st where
  fails hn := by
    obtain ⟨e, he⟩ := h.fails hn
    exact ⟨e, heq.trans he⟩
  begins ha := by
    obtain ⟨call, ⟨calls, hcall⟩, hleaf⟩ := h.begins ha
    exact ⟨call, ⟨calls, heq ▸ hcall⟩, hleaf⟩

/-- The loop over callbacks begins with the first one. -/
theorem opens_delayCallbacks {delay : Ref → Logged (Option JobId)} {wire : Scheduler → Scheduler}
    {callbacks : List Ref} {job : JobId} (hlinks : ∀ d : Scheduler, d.SameLinks (wire d))
    (hwire : ∀ d, (wire d).parentJobId = some job) (hjob : ∃ row, st.store.get? job = some row)
    (hi : Intact env.orm heap s part st)
    (hspec : ∀ st, Intact env.orm heap s part st → st.ParentKnown c →
      Opens env.orm heap s part c (delay c) st) :
    Opens env.orm heap s part c (Logged.delayCallbacks delay wire (c :: callbacks)) st := by
  have ha : Returns (assign c wire) st ()
      { st with heap := Function.update st.heap c (wire (st.heap c)) } := rfl
  refine (Opens.bind (hspec _ (hi.assign hlinks ha) fun p hp ↦ ?_)).congr (Logged.bind_quiet ha)
  simp only [Function.update_self, hwire, Option.some.injEq] at hp
  obtain ⟨row, hrow⟩ := hjob
  rw [← hp, hrow]
  rfl

/-- A new graph is opened or not. -/
theorem returns_jobGraphUuid (d : Scheduler) (st : Session) :
    ∃ graphUuid st', Returns (jobGraphUuid d) st graphUuid st' := by
  unfold jobGraphUuid
  split
  · exact ⟨_, _, rfl⟩
  · exact ⟨_, _, rfl⟩

/-- The callbacks of an enqueued delayable come before its own method. -/
theorem opens_callbacks {delay : Ref → Logged (Option JobId)} {next error : Scheduler → Scheduler}
    {job : JobId} (hmust : env.mustRunWithoutDelay = true)
    (hr : s.AcceptsDelayable env.orm (heap r))
    (hnext : ∀ d : Scheduler, d.SameLinks (next d) ∧ (next d).parentJobId = some job)
    (herror : ∀ d : Scheduler, d.SameLinks (error d) ∧ (error d).parentJobId = some job)
    (hjob : ∃ row, st.store.get? job = some row) (hi : Intact env.orm heap s part st)
    (hspec : ∀ c, FirstCallback heap r c → ∀ st, Intact env.orm heap s part st →
      st.ParentKnown c → Opens env.orm heap s part c (delay c) st) :
    Opens env.orm heap s (r :: part) r (do
      Logged.delayCallbacks delay next (heap r).nextDelayables
      Logged.delayCallbacks delay error (heap r).onErrorDelayables
      Logged.runWithoutDelay env r job
      return job) st := by
  have hmem : r ∈ r :: part := List.mem_cons_self
  have hsub (a : Ref) : a ∈ part → a ∈ r :: part := List.mem_cons_of_mem r
  have hnil {wire : Scheduler → Scheduler} {f : Unit → Logged JobId} :
      (Logged.delayCallbacks delay wire [] >>= f) st = f () st := rfl
  cases hnexts : (heap r).nextDelayables with
  | cons c callbacks =>
    have hc : FirstCallback heap r c := by simp [FirstCallback, Scheduler.callbacks, hnexts]
    exact (opens_delayCallbacks (fun d ↦ (hnext d).1) (fun d ↦ (hnext d).2) hjob hi
      (hspec c hc)).bind.of_firstCallback hc hr hsub hmem
  | nil =>
    refine Opens.congr ?_ hnil
    cases herrors : (heap r).onErrorDelayables with
    | cons c callbacks =>
      have hc : FirstCallback heap r c := by
        simp [FirstCallback, Scheduler.callbacks, hnexts, herrors]
      exact (opens_delayCallbacks (fun d ↦ (herror d).1) (fun d ↦ (herror d).2) hjob hi
        (hspec c hc)).bind.of_firstCallback hc hr hsub hmem
    | nil =>
      refine Opens.congr ?_ hnil
      have hleaf : (heap r).callbacks = [] := by simp [Scheduler.callbacks, hnexts, herrors]
      refine Opens.bind ⟨?_, fun _ ↦ ⟨⟨r, (env.run job).outcome.succeeded⟩, ?_, .inl ⟨rfl, hleaf⟩⟩⟩
      · rintro ⟨a, ha, hn⟩
        rcases ha.cases_head with rfl | ⟨c, hc, _⟩
        · exact absurd hr hn
        · rw [FirstCallback, hleaf] at hc
          cases hc
      · unfold Logged.runWithoutDelay
        rw [hmust]
        exact (Logged.begins_record _ st).bind

/-- The call for a delayable opens with the call for its first callback, or with its own
method. -/
theorem opens_delay {fuel : Nat} {call : DelayableCall} {properties : DelayableProperties}
    (hmust : env.mustRunWithoutDelay = true) (hsees : env.orm.SeesOwn)
    (hcls : (heap r).cls = .delayable call properties none) (hr : r ∉ part)
    (hi : Intact env.orm heap s (r :: part) st) (hparent : st.ParentKnown r)
    (hspec : ∀ c, FirstCallback heap r c → ∀ st, Intact env.orm heap s part st →
      st.ParentKnown c → Opens env.orm heap s part c (Logged.delay env fuel c) st) :
    Opens env.orm heap s (r :: part) r (Logged.delay env (fuel + 1) r) st := by
  have hmem : r ∈ r :: part := List.mem_cons_self
  have hlinks := hi.objects r hmem
  have hread (st : Session) : Returns (read r) st (st.heap r) st := rfl
  have hdelay : Logged.delay env (fuel + 1) r st =
      (some <$> Logged.delayDelayable env (Logged.delay env fuel) r call properties) st := by
    refine (Logged.bind_quiet (hread st)).trans ?_
    rw [hlinks.cls, hcls]
  refine Opens.congr (Opens.bind ?_) hdelay
  obtain ⟨graphUuid, st₁, hgraph⟩ := returns_jobGraphUuid (st.heap r) st
  obtain ⟨hheap, hstore⟩ := eq_of_jobGraphUuid hgraph
  have hi₁ : Intact env.orm heap s (r :: part) st₁ := by
    refine ⟨?_, ?_, ?_⟩
    · rw [hheap]
      exact hi.objects
    · rw [hstore]
      exact hi.rows
    · rw [hstore]
      exact hi.own
  have hparent₁ : st₁.ParentKnown r := by
    unfold Session.ParentKnown
    rw [hheap, hstore]
    exact hparent
  have hcls₁ : (st₁.heap r).cls = .delayable call properties none :=
    (hi₁.objects r hmem).cls.trans hcls
  have henqueue := enqueueDelayable_accepts env graphUuid hcls₁ hparent₁
  rw [hi₁.acceptsDelayable_iff hmem] at henqueue
  refine Opens.congr ?_ ((Logged.bind_quiet (hread st)).trans (Logged.bind_quiet hgraph))
  by_cases ha : s.AcceptsDelayable env.orm (heap r)
  · obtain ⟨job, st₂, henq⟩ := henqueue.1 ha
    have hi₂ : Intact env.orm heap s part st₂ :=
      (hi₁.mono fun a ↦ List.mem_cons_of_mem r).enqueueDelayable hsees hr henq
    have hjob := (enqueueDelayable_spec henq).2.1
    refine Opens.congr ?_ (Logged.bind_quiet henq)
    rw [hlinks.nextDelayables, hlinks.onErrorDelayables]
    exact opens_callbacks hmust ha (fun _ ↦ ⟨⟨rfl, rfl, rfl⟩, rfl⟩)
      (fun _ ↦ ⟨⟨rfl, rfl, rfl⟩, rfl⟩) hjob hi₂ hspec
  · obtain ⟨e, he⟩ := henqueue.2 ha
    exact ⟨fun _ ↦ (Logged.fails_quiet he).bind, fun hall ↦ absurd (hall r .refl) ha⟩

/-- Among more objects. -/
theorem Opens.mono (h : Opens env.orm heap s part r m st) (hsub : ∀ a ∈ part, a ∈ part') :
    Opens env.orm heap s part' r m st where
  fails := h.fails
  begins ha := by
    obtain ⟨call, hcall, hleaf⟩ := h.begins ha
    refine ⟨call, hcall, hleaf.imp_right ?_⟩
    rintro ⟨p, hp, hmem⟩
    exact ⟨p, hsub p hp, hmem⟩

end Opens

/-- The calls for the roots of a forest open so, by induction over it. -/
theorem opens_of_forest {env : DelayEnv} {heap : Ref → Scheduler} {s : Store}
    {roots refs : List Ref} (hmust : env.mustRunWithoutDelay = true) (hsees : env.orm.SeesOwn)
    (h : Forest heap roots refs) (hnodup : refs.Nodup)
    (hdelayables : ∀ a ∈ refs, (heap a).IsDelayable) {r : Ref} (hr : roots.head? = some r)
    {fuel : Nat} {st : Session} (hfuel : refs.length ≤ fuel)
    (hi : Intact env.orm heap s refs st) (hparent : st.ParentKnown r) :
    Opens env.orm heap s refs r (Logged.delay env fuel r) st := by
  induction h generalizing r fuel st with
  | nil => cases hr
  | @delayable r₀ call properties roots next error rest hcls hnexts herrors _ ihNext ihError _ =>
    obtain rfl : r₀ = r := Option.some.inj hr
    simp only [List.cons_append, List.append_assoc] at *
    obtain ⟨hself, hnodup⟩ := List.nodup_cons.mp hnodup
    have hnext : ∀ a ∈ next, a ∈ next ++ (error ++ rest) := fun a ↦ List.mem_append_left _
    have herror : ∀ a ∈ error, a ∈ next ++ (error ++ rest) := fun a ha ↦
      List.mem_append_right _ (List.mem_append_left _ ha)
    cases fuel with
    | zero => cases hfuel
    | succ fuel =>
      have hle : next.length + (error.length + rest.length) ≤ fuel := by
        simpa using hfuel
      refine opens_delay hmust hsees hcls hself hi hparent fun c hc st hi hparent ↦ ?_
      rw [FirstCallback, Scheduler.callbacks] at hc
      cases hlist : (heap r₀).nextDelayables with
      | cons c' callbacks =>
        rw [hlist] at hc
        refine (ihNext ?_ ?_ (hlist ▸ hc) ?_ (hi.mono hnext) hparent).mono hnext
        · exact hnodup.sublist (List.sublist_append_left _ _)
        · exact fun a ha ↦ hdelayables a (List.mem_cons_of_mem _ (hnext a ha))
        · omega
      | nil =>
        rw [hlist] at hc
        refine (ihError ?_ ?_ hc ?_ (hi.mono herror) hparent).mono herror
        · exact (hnodup.sublist (List.sublist_append_right _ _)).sublist
            (List.sublist_append_left _ _)
        · exact fun a ha ↦ hdelayables a (List.mem_cons_of_mem _ (herror a ha))
        · omega
  | @compound r₀ _ _ _ _ _ _ hcls =>
    obtain ⟨call, properties, job, hd⟩ := hdelayables r₀ (by simp)
    rcases hcls with hcls | hcls <;> cases hd.symm.trans hcls

/-! ### The calls come to an end -/

/-- The objects link as they did, and delayables are still such. -/
structure Linked (heap : Ref → Scheduler) (st : Session) : Prop where
  nextDelayables : ∀ a, (st.heap a).nextDelayables = (heap a).nextDelayables
  onErrorDelayables : ∀ a, (st.heap a).onErrorDelayables = (heap a).onErrorDelayables
  isDelayable : ∀ a, (heap a).IsDelayable → (st.heap a).IsDelayable

section Ends

variable {env : DelayEnv} {heap : Ref → Scheduler} {st st' : Session} {r : Ref} {job : JobId}

/-- An assignment to an object that leaves its links. -/
theorem Linked.update (h : Linked heap st) {d : Scheduler}
    (hnext : d.nextDelayables = (st.heap r).nextDelayables)
    (herror : d.onErrorDelayables = (st.heap r).onErrorDelayables)
    (hd : (st.heap r).IsDelayable → d.IsDelayable)
    (hheap : st'.heap = Function.update st.heap r d) : Linked heap st' := by
  have hat (a : Ref) : st'.heap a = if a = r then d else st.heap a := by
    rw [hheap, Function.update_apply]
  refine ⟨fun a ↦ ?_, fun a ↦ ?_, fun a ha ↦ ?_⟩
  · rw [hat, ← h.nextDelayables a]
    split
    · next ha => rw [ha, hnext]
    · rfl
  · rw [hat, ← h.onErrorDelayables a]
    split
    · next ha => rw [ha, herror]
    · rfl
  · rw [hat]
    split
    · next hr => exact hd (hr ▸ h.isDelayable a ha)
    · exact h.isDelayable a ha

/-- The same objects. -/
theorem Linked.congr (h : Linked heap st) (hheap : st'.heap = st.heap) : Linked heap st' := by
  refine ⟨?_, ?_, ?_⟩ <;> rw [hheap]
  · exact h.nextDelayables
  · exact h.onErrorDelayables
  · exact h.isDelayable

/-- `run_now` in place of the queue leaves the objects. -/
theorem run_runWithoutDelay (env : DelayEnv) (job : JobId) (st : Session) :
    ∃ out, (Delaying.runWithoutDelay env job st).run = some out ∧
      ∀ a st', out = .ok (a, st') → st'.heap = st.heap := by
  unfold Delaying.runWithoutDelay
  split
  · rw [run_bind, run_onStore]
    rcases runNow env.run st.store [job] with e | ⟨s, _ | _⟩
    · exact ⟨.error (.orm e), rfl, nofun⟩
    · exact ⟨.ok ((), { st with store := s }), rfl, fun _ _ heq ↦ by cases heq; rfl⟩
    · exact ⟨.error .jobError, rfl, nofun⟩
  · exact ⟨.ok ((), st), rfl, fun _ _ heq ↦ by cases heq; rfl⟩

/-- A run in place of the queue. -/
theorem ends_runWithoutDelay (h : Linked heap st) :
    (Logged.runWithoutDelay env r job).Ends st (Linked heap) := by
  have hrun (st : Session) (h : Linked heap st) :
      (liftM (Delaying.runWithoutDelay env job) : Logged Unit).Ends st (Linked heap) := by
    obtain ⟨out, hout, hheap⟩ := run_runWithoutDelay env job st
    exact Logged.ends_quiet hout fun a st' heq ↦ h.congr (hheap a st' heq)
  unfold Logged.runWithoutDelay
  split
  · exact (Logged.ends_record h).bind fun _ ↦ hrun
  · exact hrun st h

/-- The call of `enqueue` for a delayable. -/
theorem ends_enqueueDelayable {call : DelayableCall} {properties : DelayableProperties}
    {graphUuid : Option Nat} (h : Linked heap st) :
    (liftM (enqueueDelayable env r call properties graphUuid) : Logged JobId).Ends st
      (Linked heap) := by
  have hrun := run_enqueueDelayable env r call properties graphUuid st
  split at hrun
  · exact Logged.ends_quiet hrun nofun
  · split at hrun
    · exact Logged.ends_quiet hrun nofun
    · next s job _ =>
      refine Logged.ends_quiet hrun fun a st' heq ↦ ?_
      cases heq
      exact h.update (d := { st.heap r with cls := .delayable call properties (some job) })
        rfl rfl (fun _ ↦ ⟨call, properties, some job, rfl⟩) rfl

/-- The call for a delayable comes to an end when those for its callbacks do. -/
theorem ends_delay {fuel : Nat} (h : Linked heap st) (hr : (heap r).IsDelayable)
    (hspec : ∀ callbacks, callbacks = (heap r).nextDelayables ∨
      callbacks = (heap r).onErrorDelayables → ∀ wire : Scheduler → Scheduler,
      (∀ d : Scheduler, d.SameLinks (wire d)) → ∀ st, Linked heap st →
        (Logged.delayCallbacks (Logged.delay env fuel) wire callbacks).Ends st (Linked heap)) :
    (Logged.delay env (fuel + 1) r).Ends st (Linked heap) := by
  have hread (st : Session) : Returns (read r) st (st.heap r) st := rfl
  refine Logged.Ends.congr ?_ (Logged.bind_quiet (hread st))
  obtain ⟨call, properties, job, hcls⟩ := h.isDelayable r hr
  rw [hcls]
  cases job with
  | some job => exact Logged.ends_pure h
  | none =>
    refine Logged.Ends.bind (P := Linked heap) ?_ fun _ _ h ↦ Logged.ends_pure h
    refine Logged.Ends.congr ?_ (Logged.bind_quiet (hread st))
    obtain ⟨graphUuid, st₁, hgraph⟩ := returns_jobGraphUuid (st.heap r) st
    refine Logged.Ends.congr ?_ (Logged.bind_quiet hgraph)
    have h₁ : Linked heap st₁ := h.congr (eq_of_jobGraphUuid hgraph).1
    refine (ends_enqueueDelayable h₁).bind fun job st₂ h₂ ↦ ?_
    rw [h.nextDelayables, h.onErrorDelayables]
    refine Logged.Ends.bind (P := Linked heap) ?_ fun _ st₃ h₃ ↦ ?_
    · refine hspec _ (.inl rfl) _ (fun d ↦ ?_) st₂ h₂
      exact ⟨rfl, rfl, rfl⟩
    refine Logged.Ends.bind (P := Linked heap) ?_ fun _ st₄ h₄ ↦ ?_
    · refine hspec _ (.inr rfl) _ (fun d ↦ ?_) st₃ h₃
      exact ⟨rfl, rfl, rfl⟩
    · exact (ends_runWithoutDelay h₄).bind fun _ _ h ↦ Logged.ends_pure h

/-- Every loop over a forest of delayables comes to an end, by induction over the forest. -/
theorem ends_of_forest {roots refs : List Ref} (h : Forest heap roots refs)
    (hdelayables : ∀ a ∈ refs, (heap a).IsDelayable) {fuel : Nat} (hfuel : refs.length ≤ fuel)
    {wire : Scheduler → Scheduler} (hwire : ∀ d : Scheduler, d.SameLinks (wire d))
    (hl : Linked heap st) :
    (Logged.delayCallbacks (Logged.delay env fuel) wire roots).Ends st (Linked heap) := by
  induction h generalizing fuel wire st with
  | nil => exact Logged.ends_pure hl
  | @delayable r call properties roots next error rest hcls _ _ _ ihNext ihError ih =>
    simp only [List.cons_append, List.append_assoc, List.mem_cons, List.mem_append,
      List.length_cons, List.length_append] at hdelayables hfuel
    have hassign : Linked heap
        { st with heap := Function.update st.heap r (wire (st.heap r)) } := by
      have hsame := hwire (st.heap r)
      refine hl.update hsame.nextDelayables hsame.onErrorDelayables ?_ rfl
      rintro ⟨call, properties, job, hcls⟩
      exact ⟨call, properties, job, hsame.cls.trans hcls⟩
    refine Logged.Ends.congr ?_ (Logged.bind_quiet rfl)
    refine Logged.Ends.bind (P := Linked heap) ?_ fun _ st₂ hl₂ ↦ ?_
    · cases fuel with
      | zero => omega
      | succ fuel =>
        refine ends_delay hassign ⟨call, properties, none, hcls⟩ fun callbacks hc wire hw st hl ↦ ?_
        rcases hc with rfl | rfl
        · exact ihNext (fun a ha ↦ hdelayables a (by simp [ha])) (by omega) hw hl
        · exact ihError (fun a ha ↦ hdelayables a (by simp [ha])) (by omega) hw hl
    · exact ih (fun a ha ↦ hdelayables a (by simp [ha])) (by omega) hwire hl₂
  | @compound r _ _ _ _ _ _ hcls =>
    obtain ⟨call, properties, job, hd⟩ := hdelayables r (by simp)
    rcases hcls with hcls | hcls <;> cases hd.symm.trans hcls

end Ends

/-! ### The edges of a tree -/

section Tree

variable {env : DelayEnv} {heap : Ref → Scheduler} {st : Session} {root : Ref} {refs : List Ref}
  {fuel : Nat}

/-- The call for the root comes to an end. -/
theorem DelayableTree.ends (h : DelayableTree st.heap root refs) (hfuel : refs.length ≤ fuel) :
    (Logged.delay env fuel root).Ends st (Linked st.heap) := by
  have hl : Linked st.heap st := ⟨fun _ ↦ rfl, fun _ ↦ rfl, fun _ ↦ id⟩
  have hd := h.isDelayable
  cases h.forest with
  | @delayable _ _ _ _ next error rest hcls hnext herror hrest =>
    simp only [List.cons_append, List.length_cons, List.length_append] at hfuel
    cases fuel with
    | zero => omega
    | succ fuel =>
      refine ends_delay hl (hd root (by simp)) fun callbacks hc wire hw st' hl' ↦ ?_
      rcases hc with rfl | rfl
      · exact ends_of_forest hnext (fun a ha ↦ hd a (by simp [ha])) (by omega) hw hl'
      · exact ends_of_forest herror (fun a ha ↦ hd a (by simp [ha])) (by omega) hw hl'
  | compound hcls =>
    obtain ⟨call, properties, job, hcls'⟩ := hd root (by simp)
    rcases hcls with hcls | hcls <;> cases hcls'.symm.trans hcls

/-- A root without callbacks is alone. -/
theorem DelayableTree.eq_root (h : DelayableTree heap root refs)
    (hleaf : (heap root).callbacks = []) : refs = [root] := by
  obtain ⟨hnext, herror⟩ := List.append_eq_nil_iff.mp hleaf
  obtain ⟨call, properties, job, hcls⟩ :=
    h.isDelayable root (h.forest.mem_of_mem_roots List.mem_cons_self)
  obtain ⟨below, rfl, hbelow⟩ := h.forest.links
  simp only [Scheduler.links, hcls, hnext, herror, List.append_nil] at hbelow
  cases hbelow
  rfl

/-- A log of a tree without edges respects them. -/
theorem respectsGraph_of_leaf (h : DelayableTree heap root refs)
    (hleaf : (heap root).callbacks = []) (log : List MethodCall) :
    RespectsGraph heap refs log := by
  obtain ⟨hnext, herror⟩ := List.append_eq_nil_iff.mp hleaf
  rw [h.eq_root hleaf]
  refine ⟨?_, ?_, ?_⟩
  all_goals
    intro p hp
    obtain rfl := List.mem_singleton.mp hp
  · rw [hleaf]
    exact nofun
  · rw [hnext]
    exact fun _ ↦ nofun
  · rw [herror]
    exact fun _ ↦ nofun

/-- An empty log respects every graph. -/
theorem respectsGraph_nil : RespectsGraph heap refs [] := by
  refine ⟨?_, fun _ _ ↦ nofun, fun _ _ ↦ nofun⟩
  intro _ _ _ _ before call after hlog
  cases before <;> cases hlog

/-- A log does not begin with a callback. -/
theorem RespectsGraph.ne_callback {call : MethodCall} {log : List MethodCall}
    (h : RespectsGraph heap refs (call :: log)) {p : Ref} (hp : p ∈ refs) :
    call.delayable ∉ (heap p).callbacks := by
  intro hc
  obtain ⟨parent, hparent, _⟩ := h.order p hp call.delayable hc [] call log rfl rfl
  cases hparent

/-- Without the queue the executions of a tree respect its edges exactly when it has none or
when nothing is executed: an object on the way to the first leaf cannot be enqueued. -/
theorem respectsGraph_iff (hmust : env.mustRunWithoutDelay = true) (hsees : env.orm.SeesOwn)
    (htree : DelayableTree st.heap root refs) (hfuel : refs.length ≤ fuel) :
    ∃ log out, Logged.delay env fuel root st = (log, some out) ∧
      (delay env fuel root st).run = some out ∧
      (RespectsGraph st.heap refs log ↔ (st.heap root).callbacks = [] ∨
        ∃ a, FirstPath st.heap root a ∧ ¬ st.store.AcceptsDelayable env.orm (st.heap a)) := by
  have hends : (Logged.delay env fuel root).Ends st (Linked st.heap) := htree.ends hfuel
  obtain ⟨log, out, hlog, _⟩ := hends
  have hrun : (delay env fuel root st).run = some out := by
    rw [← Logged.forget_delay]
    exact congrArg Prod.snd hlog
  have hi : Intact env.orm st.heap st.store refs st :=
    ⟨fun _ _ ↦ ⟨rfl, rfl, rfl⟩, fun _ _ ↦ id, fun _ _ ↦ .inl⟩
  have hparent : st.ParentKnown root := by
    intro p hp
    have hnone := congrArg Context.parentJobId
      (htree.unwired root (htree.forest.mem_of_mem_roots List.mem_cons_self))
    cases hnone.symm.trans hp
  have hopens := opens_of_forest hmust hsees htree.forest htree.nodup htree.isDelayable rfl hfuel
    hi hparent
  refine ⟨log, out, hlog, hrun, fun h ↦ ?_, ?_⟩
  · by_contra hn
    rw [not_or, not_exists] at hn
    obtain ⟨call, ⟨calls, hcall⟩, hleaf⟩ := hopens.begins fun a ha ↦
      not_not.mp (not_and.mp (hn.2 a) ha)
    rw [hlog] at hcall
    obtain rfl : log = call :: calls := hcall
    rcases hleaf with ⟨_, hleaf⟩ | ⟨p, hp, hc⟩
    · exact hn.1 hleaf
    · exact h.ne_callback hp hc
  · rintro (hleaf | hn)
    · exact respectsGraph_of_leaf htree hleaf log
    · obtain ⟨e, he⟩ := hopens.fails hn
      cases hlog.symm.trans he
      exact respectsGraph_nil

end Tree

/-! ### A delayable with both kinds of callbacks -/

/-- A user of the queue. -/
def queueUser : Caller := { user := 2, companyIds := [1], isUser := true, isManager := false }

/-- Their environment without the queue. -/
def withoutQueue : DelayEnv := { orm := queueUser.env 1, mustRunWithoutDelay := true }

/-- They see their own jobs. -/
theorem seesOwn_withoutQueue : withoutQueue.orm.SeesOwn :=
  Caller.seesOwn (List.mem_singleton_self 1)

/-- Object 0 with object 1 on success and object 2 on failure. -/
def bothCallbacks : Session where
  heap
    | 0 =>
      { cls := .delayable { modelName := "res.partner", jobMethod := some "write" } {} none
        nextDelayables := [1]
        onErrorDelayables := [2] }
    | _ => { cls := .delayable { modelName := "res.partner", jobMethod := some "ping" } {} none }
  store := .empty

/-- A part of it is a tree. -/
theorem delayableTree_bothCallbacks {root : Ref} {refs : List Ref} (fuel : Nat)
    (hvisited : visited bothCallbacks.heap fuel [root] = some refs) (hnodup : refs.Nodup)
    (hdelayables : ∀ a ∈ refs, (bothCallbacks.heap a).IsDelayable)
    (hunwired : ∀ a ∈ refs, (bothCallbacks.heap a).context = {}) :
    DelayableTree bothCallbacks.heap root refs :=
  ⟨forest_of_visited hvisited, hnodup, hdelayables, hunwired⟩

/-- A callback alone is executed, and its method returns. -/
theorem respectsGraph_iff_alone : ∃ log out,
    Logged.delay withoutQueue 1 1 bothCallbacks = (log, some out) ∧ log = [⟨1, true⟩] ∧
      (delay withoutQueue 1 1 bothCallbacks).run = some out ∧
      RespectsGraph bothCallbacks.heap [1] log := by
  have htree : DelayableTree bothCallbacks.heap 1 [1] :=
    delayableTree_bothCallbacks 2 rfl (by decide) (by decide) (by decide)
  have hexecuted : (Logged.delay withoutQueue 1 1 bothCallbacks).1 = [⟨1, true⟩] := by
    decide +kernel
  obtain ⟨log, out, hlog, hrun, hiff⟩ :=
    @respectsGraph_iff withoutQueue bothCallbacks 1 [1] 1 rfl seesOwn_withoutQueue htree (by decide)
  rw [hlog] at hexecuted
  exact ⟨log, out, hlog, hexecuted, hrun, hiff.mpr (.inl rfl)⟩

/-- Both callbacks run before the method of their parent, which succeeds. -/
theorem not_respectsGraph_bothCallbacks : ¬ ∀ (env : DelayEnv) (st : Session) (root : Ref)
    (refs : List Ref) (fuel : Nat), env.mustRunWithoutDelay = true → env.orm.SeesOwn →
      DelayableTree st.heap root refs → refs.length ≤ fuel →
      RespectsGraph st.heap refs (Logged.delay env fuel root st).1 := by
  intro hall
  have htree : DelayableTree bothCallbacks.heap 0 [0, 1, 2] :=
    delayableTree_bothCallbacks 4 rfl (by decide) (by decide) (by decide)
  have hlog : (Logged.delay withoutQueue 3 0 bothCallbacks).1 =
      [⟨1, true⟩, ⟨2, true⟩, ⟨0, true⟩] := by
    decide +kernel
  have hrespects := hall withoutQueue bothCallbacks 0 [0, 1, 2] 3 rfl seesOwn_withoutQueue htree
    (by decide)
  rw [hlog] at hrespects
  exact hrespects.ne_callback (p := 0) (by decide) (by decide)

end JobWorker
