import JobWorker.Models.QueueJob

/-!
# Concurrent calls of `enqueue` with an identity key

`enqueue` searches for an active job with its identity key, inserts one, and searches again
behind a unique violation (`job_worker/models/queue_job.py:991–1054`). Transactions are
snapshot-isolated: both searches see the rows that were committed when the transaction
began and its own ones, through the record rules of the caller
(`job_worker/security/record_rules.xml:3–30`), while the partial unique index
(`models/queue_job.py:283–288`) holds every row and makes an insertion wait for the
transaction that is about to commit another row with its key.
-/

namespace JobWorker

open Relational

namespace Store

/-- The rows with the ids of `p`. -/
def restrict (s : Store) (p : JobId → Bool) : Store where
  jobs := s.jobs.filter fun i _ ↦ p i
  nextId := s.nextId
  lt_nextId i r h := by
    rw [Std.ExtTreeMap.getElem?_filter', Option.filter_eq_some_iff] at h
    exact s.lt_nextId i r h.1
  identityKeyActiveUniq i j a b hi hj := by
    rw [Std.ExtTreeMap.getElem?_filter', Option.filter_eq_some_iff] at hi hj
    exact s.identityKeyActiveUniq i j a b hi.1 hj.1

/-- A row is left when its id is. -/
theorem get?_restrict_eq_some {s : Store} {p : JobId → Bool} {i : JobId} {r : Job} :
    (s.restrict p).get? i = some r ↔ s.get? i = some r ∧ p i = true := by
  unfold restrict get?
  rw [Std.ExtTreeMap.getElem?_filter', Option.filter_eq_some_iff]

/-- Job `i` is active and holds `key`. -/
def ActiveWith (s : Store) (key : IdentityKey) (i : JobId) : Prop :=
  ∃ r, s.get? i = some r ∧ r.identityKey = some key ∧ r.state.isActive = true

/-- One job at most is active with a key. -/
theorem ActiveWith.unique {s : Store} {key : IdentityKey} {i j : JobId}
    (hi : s.ActiveWith key i) (hj : s.ActiveWith key j) : i = j := by
  obtain ⟨a, ha, hka, haa⟩ := hi
  obtain ⟨b, hb, hkb, hab⟩ := hj
  exact s.identityKeyActiveUniq i j a b ha hb ⟨by rw [hka]; rfl, hka.trans hkb.symm, haa, hab⟩

/-- An insertion into a table that has the parent fails exactly when the key is held. -/
theorem create_eq_error_iff {s : Store} {vals : Job} {key : IdentityKey}
    (hparent : ∀ p, vals.parentId = some p → (s.get? p).isSome = true)
    (hkey : vals.identityKey = some key) (hactive : vals.state.isActive = true) :
    s.create vals = .error .integrityError ↔ ∃ i, s.ActiveWith key i := by
  have hok : (∃ out, s.create vals = .ok out) ↔ ¬ ∃ i, s.ActiveWith key i := by
    rw [exists_create_iff hparent, not_exists]
    constructor
    · rintro h i ⟨r, hr, hk, ha⟩
      exact h i r hr ⟨by rw [hk]; rfl, hk.trans hkey.symm, ha, hactive⟩
    · rintro h i r hr ⟨_, hk, ha, _⟩
      exact h i ⟨r, hr, hk.trans hkey, ha⟩
  cases hc : s.create vals with
  | error e =>
    obtain rfl := create_eq_error hc
    rw [hc] at hok
    exact iff_of_true rfl (not_not.mp (mt hok.mpr nofun))
  | ok out =>
    rw [hc] at hok
    exact iff_of_false nofun (hok.mp ⟨out, rfl⟩)

end Store

/-! ### Callers -/

/-- A user with its groups, and the companies it has selected. -/
structure Caller where
  user : Nat
  companyIds : List Nat
  isUser : Bool
  isManager : Bool

/-- The record rules: every caller is kept to its companies, a caller of the user group that
is no manager to its own jobs; `security/record_rules.xml:3–30`. -/
def Caller.sees (c : Caller) (_ : JobId) (r : Job) : Bool :=
  r.companyId.all c.companyIds.contains &&
    (c.isManager || !c.isUser || r.userId == some c.user)

/-- The environment of a caller that works in a company. -/
def Caller.env (c : Caller) (company : Nat) : OrmEnv where
  sees := c.sees
  userId := some c.user
  companyId := some company

/-! ### The database -/

/-- The checks of `enqueue` before its first search; `models/queue_job.py:964–985`. -/
def checkEnqueue (env : OrmEnv) (a : EnqueueArgs) : Except OrmError (Option Eta) :=
  if a.modelName = "" ∨ env.hasModel a.modelName = false then
    .error (.valueError s!"Model '{a.modelName}' does not exist in the registry")
  else if a.methodName.startsWith "__" ∧ a.methodName.endsWith "__" then
    .error (.valueError s!"Dunder method '{a.methodName}' is not allowed in job queue")
  else resolveEta a.eta a.scheduledAt

/-- The rows of the table, committed or not, the transactions in progress that have inserted
some of them, and the ids that the snapshot of every open transaction shows: no call changes
a row that is there. -/
structure Database where
  index : Store
  owner : JobId → Option Nat
  snapshot : Nat → Option (JobId → Bool)

namespace Database

/-- The table `s`, without a transaction. -/
def idle (s : Store) : Database where
  index := s
  owner _ := none
  snapshot _ := none

/-- The row is in the snapshot of transaction `t`, or is its own. -/
def visible (db : Database) (t : Nat) (i : JobId) : Bool :=
  (db.snapshot t).any (fun shows ↦ shows i) || db.owner i == some t

/-- The table as transaction `t` reads it. -/
def view (db : Database) (t : Nat) : Store := db.index.restrict (db.visible t)

/-- An insertion of `vals` by `t` has to wait for another transaction. -/
def awaits (db : Database) (t : Nat) (vals : Job) : Bool :=
  0 < db.index.jobs.count fun i r ↦ decide (r.Collide vals) && (db.owner i).any (· != t)

/-- The insertion: the parent must be there, and the index free. -/
def create (db : Database) (t : Nat) (vals : Job) : Except OrmError (Store × JobId) :=
  if vals.parentId.any fun p ↦ ((db.view t).get? p).isNone then .error .integrityError
  else db.index.create vals

/-- `enqueue` in transaction `t`: its outcome and the table behind it, or nothing as long as
it waits; `models/queue_job.py:943–1054`. -/
def enqueue (db : Database) (t : Nat) (env : OrmEnv) (now : Time) (a : EnqueueArgs) :
    Option (Except OrmError JobId × Database) :=
  match checkEnqueue env a with
  | .error e => some (.error e, db)
  | .ok eta =>
    let search := (storedIdentityKey a.identityKey).bind (findByIdentityKey env (db.view t))
    match search with
    | some existing => some (.ok existing, db)
    | none =>
      let vals := enqueueVals env now a eta
      if db.awaits t vals then none
      else
        match db.create t vals with
        | .ok (s, j) =>
          some (.ok j, { db with
            index := s
            owner := fun i ↦ if i = j then some t else db.owner i })
        | .error e =>
          -- The savepoint is rolled back, and the second search reads the same snapshot.
          match search with
          | some existing => some (.ok existing, db)
          | none => some (.error e, db)

/-- A transaction begins: its snapshot shows the committed rows. -/
def begin (db : Database) (t : Nat) : Database where
  index := db.index
  owner := db.owner
  snapshot u :=
    if u = t then some fun i ↦ (db.index.get? i).isSome && (db.owner i).isNone
    else db.snapshot u

/-- A transaction commits. -/
def commit (db : Database) (t : Nat) : Database where
  index := db.index
  owner i := if db.owner i = some t then none else db.owner i
  snapshot u := if u = t then none else db.snapshot u

/-- A transaction is rolled back, its rows with it. -/
def rollback (db : Database) (t : Nat) : Database where
  index := db.index.restrict fun i ↦ db.owner i != some t
  owner i := if db.owner i = some t then none else db.owner i
  snapshot u := if u = t then none else db.snapshot u

/-- A call of `enqueue` that has come to its end. -/
structure Call where
  before : Database
  transaction : Nat
  env : OrmEnv
  now : Time
  args : EnqueueArgs
  result : Except OrmError JobId
  behind : Database

/-- An interleaving of transactions from the table `s`, with its calls, the last one first. -/
inductive History (s : Store) : List Call → Database → Prop
  | idle : History s [] (idle s)
  | begin {calls : List Call} {db : Database} {t : Nat} :
      History s calls db → db.snapshot t = none → History s calls (db.begin t)
  | commit {calls : List Call} {db : Database} {t : Nat} :
      History s calls db → db.snapshot t ≠ none → History s calls (db.commit t)
  | rollback {calls : List Call} {db : Database} {t : Nat} :
      History s calls db → db.snapshot t ≠ none → History s calls (db.rollback t)
  | enqueue {calls : List Call} {db db' : Database} {t : Nat} {env : OrmEnv} {now : Time}
      {args : EnqueueArgs} {result : Except OrmError JobId} :
      History s calls db → db.snapshot t ≠ none →
      db.enqueue t env now args = some (result, db') →
      History s (⟨db, t, env, now, args, result, db'⟩ :: calls) db'

namespace Call

/-- The call asks for a job with `key`, and for nothing that does not exist. -/
def Asks (c : Call) (key : IdentityKey) : Prop :=
  storedIdentityKey c.args.identityKey = some key ∧
    (∃ eta, checkEnqueue c.env c.args = .ok eta) ∧
    ∀ p, c.args.parentId.filter (· ≠ 0) = some p →
      ((c.before.view c.transaction).get? p).isSome = true

/-- The call returns the active job with `key`. -/
def Returns (c : Call) (key : IdentityKey) : Prop :=
  ∃ j, c.result = .ok j ∧ c.behind.index.ActiveWith key j

/-- The active job with `key`, if there is one, was committed before the transaction began
or is its own, and the record rules show it to the caller. -/
def Shows (c : Call) (key : IdentityKey) : Prop :=
  ∀ i r, c.before.index.get? i = some r → r.identityKey = some key →
    r.state.isActive = true →
    c.before.visible c.transaction i = true ∧ c.env.sees i r = true

end Call

section Enqueue

variable {db db' : Database} {t : Nat} {env : OrmEnv} {now : Time} {a : EnqueueArgs}
  {result : Except OrmError JobId} {key : IdentityKey} {i j : JobId} {r : Job}

/-- What a transaction reads. -/
theorem get?_view : (db.view t).get? i = some r ↔
    db.index.get? i = some r ∧ db.visible t i = true :=
  Store.get?_restrict_eq_some

/-- A parent that the transaction reads is there. -/
theorem isSome_of_view (h : ((db.view t).get? i).isSome = true) :
    (db.index.get? i).isSome = true := by
  obtain ⟨r, hr⟩ := Option.isSome_iff_exists.mp h
  rw [(get?_view.mp hr).1]
  rfl

/-- An insertion that meets its parent fails exactly when the key is held. -/
theorem create_eq_error_iff {eta : Option Eta}
    (hkey : storedIdentityKey a.identityKey = some key)
    (hparent : ∀ p, a.parentId.filter (· ≠ 0) = some p → ((db.view t).get? p).isSome = true) :
    db.create t (enqueueVals env now a eta) = .error .integrityError ↔
      ∃ i, db.index.ActiveWith key i := by
  have hp : ¬ ((enqueueVals env now a eta).parentId.any fun p ↦
      ((db.view t).get? p).isNone) = true := Store.not_any_isNone hparent
  rw [create, if_neg hp]
  exact Store.create_eq_error_iff (fun p hp ↦ isSome_of_view (hparent p hp)) hkey
    (isActive_enqueueVals env now a eta)

/-- An insertion that succeeds makes its key active. -/
theorem activeWith_of_create {eta : Option Eta} {s : Store}
    (h : db.create t (enqueueVals env now a eta) = .ok (s, j))
    (hkey : storedIdentityKey a.identityKey = some key) : s.ActiveWith key j := by
  unfold create at h
  split at h
  · cases h
  exact ⟨_, Store.get?_create_self h, hkey, isActive_enqueueVals env now a eta⟩

/-- An insertion fails for its parent or its key only. -/
theorem eq_integrityError_of_create {vals : Job} {e : OrmError}
    (h : db.create t vals = .error e) : e = .integrityError := by
  unfold create at h
  split at h
  · cases h
    rfl
  · exact Store.create_eq_error h

/-- A search that finds a job has found the active one. -/
theorem shows_of_search (h : findByIdentityKey env (db.view t) key = some j) :
    db.index.ActiveWith key j ∧ ∀ i r, db.index.get? i = some r → r.identityKey = some key →
      r.state.isActive = true → db.visible t i = true ∧ env.sees i r = true := by
  obtain ⟨q, hq, hsees, hkey, hactive⟩ := activeWith_of_findByIdentityKey h
  obtain ⟨hq, hvisible⟩ := get?_view.mp hq
  have hj : db.index.ActiveWith key j := ⟨q, hq, hkey, hactive⟩
  refine ⟨hj, fun i r hr hk ha ↦ ?_⟩
  obtain rfl := hj.unique ⟨r, hr, hk, ha⟩
  rw [hq, Option.some.injEq] at hr
  exact hr ▸ ⟨hvisible, hsees⟩

/-- A search that finds nothing does not see the active job. -/
theorem not_shows_of_search (h : findByIdentityKey env (db.view t) key = none)
    (hi : db.index.ActiveWith key i) : ∃ r, db.index.get? i = some r ∧
      r.identityKey = some key ∧ r.state.isActive = true ∧
      ¬ (db.visible t i = true ∧ env.sees i r = true) := by
  obtain ⟨r, hr, hk, ha⟩ := hi
  refine ⟨r, hr, hk, ha, fun ⟨hvisible, hsees⟩ ↦ ?_⟩
  rw [findByIdentityKey_eq_none h i r (get?_view.mpr ⟨hr, hvisible⟩) hk ha] at hsees
  cases hsees

/-- The outcome of a call that asks for `key`: it has found the active job, or none is
active and it has created one, or it fails with an active job that it does not see. -/
theorem enqueue_cases {eta : Option Eta} (h : db.enqueue t env now a = some (result, db'))
    (hkey : storedIdentityKey a.identityKey = some key) (heta : checkEnqueue env a = .ok eta)
    (hparent : ∀ p, a.parentId.filter (· ≠ 0) = some p → ((db.view t).get? p).isSome = true) :
    (∃ j, findByIdentityKey env (db.view t) key = some j ∧ result = .ok j ∧ db' = db) ∨
    ((∀ i, ¬ db.index.ActiveWith key i) ∧
      ∃ j, result = .ok j ∧ db'.index.ActiveWith key j) ∨
    (findByIdentityKey env (db.view t) key = none ∧ (∃ i, db.index.ActiveWith key i) ∧
      ∃ e, result = .error e) := by
  unfold enqueue at h
  rw [heta, hkey] at h
  dsimp only [Option.bind_some] at h
  split at h
  · next existing hfind =>
    cases h
    exact .inl ⟨existing, hfind, rfl, rfl⟩
  · next hfind =>
    split at h
    · cases h
    have hcreate : db.create t (enqueueVals env now a eta) = .error .integrityError ↔
        ∃ i, db.index.ActiveWith key i := create_eq_error_iff hkey hparent
    split at h
    · next s j hs =>
      cases h
      refine .inr (.inl ⟨fun i hi ↦ ?_, j, rfl, ?_⟩)
      · rw [hcreate.mpr ⟨i, hi⟩] at hs
        cases hs
      · exact activeWith_of_create hs hkey
    · next e he =>
      cases h
      obtain rfl := eq_integrityError_of_create he
      exact .inr (.inr ⟨hfind, hcreate.mp he, _, rfl⟩)

end Enqueue

/-- A call returns the active job with its key exactly when it sees the one that there is,
if there is one. -/
theorem Call.returns_iff_shows {c : Call} {key : IdentityKey}
    (h : c.before.enqueue c.transaction c.env c.now c.args = some (c.result, c.behind))
    (hasks : c.Asks key) : c.Returns key ↔ c.Shows key := by
  obtain ⟨hkey, ⟨eta, heta⟩, hparent⟩ := hasks
  rcases enqueue_cases h hkey heta hparent with
    ⟨j, hfind, hres, hdb⟩ | ⟨hfree, hcreated⟩ | ⟨hfind, ⟨i, hi⟩, e, hres⟩
  · obtain ⟨hj, hshows⟩ := shows_of_search hfind
    exact iff_of_true ⟨j, hres, hdb ▸ hj⟩ hshows
  · exact iff_of_true hcreated fun i r hr hk ha ↦ absurd ⟨r, hr, hk, ha⟩ (hfree i)
  · refine iff_of_false ?_ fun hshows ↦ ?_
    · rintro ⟨j, hok, _⟩
      rw [hres] at hok
      cases hok
    · obtain ⟨r, hr, hk, ha, hn⟩ := not_shows_of_search hfind hi
      exact hn (hshows i r hr hk ha)

/-- A call keeps the snapshots. -/
theorem snapshot_of_enqueue {db db' : Database} {t : Nat} {env : OrmEnv} {now : Time}
    {a : EnqueueArgs} {result : Except OrmError JobId}
    (h : db.enqueue t env now a = some (result, db')) : db'.snapshot = db.snapshot := by
  unfold enqueue at h
  split at h
  · cases h; rfl
  dsimp only at h
  split at h
  · cases h; rfl
  split at h
  · cases h
  split at h
  · cases h; rfl
  · cases h; rfl

/-- The calls of an interleaving are calls of `enqueue`. -/
theorem History.enqueue_eq {s : Store} {calls : List Call} {db : Database} {c : Call}
    (h : History s calls db) (hc : c ∈ calls) :
    c.before.enqueue c.transaction c.env c.now c.args = some (c.result, c.behind) := by
  induction h with
  | idle => cases hc
  | begin _ _ ih | commit _ _ ih | rollback _ _ ih => exact ih hc
  | enqueue _ _ henq ih =>
    rcases List.mem_cons.mp hc with rfl | hc
    · exact henq
    · exact ih hc

/-- **Identity keys under concurrency**: over every interleaving one job at most is active
with a key, and every call that asks for it returns that job exactly when every such call
sees the active job that there is. -/
theorem linearizable_iff {s : Store} {calls : List Call} {db : Database}
    {key : IdentityKey} (h : History s calls db) :
    ((∀ i j, db.index.ActiveWith key i → db.index.ActiveWith key j → i = j) ∧
        ∀ c ∈ calls, c.Asks key → c.Returns key) ↔
      ∀ c ∈ calls, c.Asks key → c.Shows key := by
  have hcall (c : Call) (hc : c ∈ calls) (hasks : c.Asks key) :
      c.Returns key ↔ c.Shows key := Call.returns_iff_shows (h.enqueue_eq hc) hasks
  rw [and_iff_right fun _ _ hi hj ↦ hi.unique hj]
  exact forall₂_congr fun c hc ↦ forall_congr' fun hasks ↦ hcall c hc hasks

/-- A job of another company is hidden from a caller, whoever has committed it when. -/
theorem Call.not_shows_of_otherCompany {c : Call} {key : IdentityKey} {caller : Caller}
    {company other : Nat} {i : JobId} {r : Job} (henv : c.env = caller.env company)
    (hr : c.before.index.get? i = some r) (hkey : r.identityKey = some key)
    (hactive : r.state.isActive = true) (hcompany : r.companyId = some other)
    (hother : other ∉ caller.companyIds) : ¬ c.Shows key := by
  intro hshows
  have hsees := (hshows i r hr hkey hactive).2
  rw [henv] at hsees
  simp [Caller.env, Caller.sees, hcompany, hother] at hsees

/-! ### One transaction alone -/

section Alone

variable {db : Database} {t : Nat}

/-- All rows are committed and in the snapshot, or the transaction's own. -/
def Alone (db : Database) (t : Nat) : Prop :=
  ∀ i r, db.index.get? i = some r →
    db.visible t i = true ∧ ∀ u, db.owner i = some u → u = t

/-- A transaction that is alone reads the whole table. -/
theorem Alone.view (h : db.Alone t) : db.view t = db.index := by
  have hjobs : (db.view t).jobs = db.index.jobs := by
    apply Std.ExtTreeMap.ext_getElem?
    intro i
    change (db.view t).get? i = db.index.get? i
    cases hr : db.index.get? i with
    | some r => exact get?_view.mpr ⟨hr, (h i r hr).1⟩
    | none =>
      by_contra hn
      obtain ⟨r, hr'⟩ := Option.ne_none_iff_exists'.mp hn
      rw [(get?_view.mp hr').1] at hr
      cases hr
  unfold Database.view Store.restrict at hjobs ⊢
  congr 1

/-- A transaction that is alone waits for nothing. -/
theorem Alone.awaits (h : db.Alone t) (vals : Job) : db.awaits t vals = false := by
  rw [Database.awaits, decide_eq_false_iff_not, Table.count, List.length_pos_iff_exists_mem]
  rintro ⟨i, hi⟩
  obtain ⟨r, hr, hp⟩ := Table.mem_select.mp hi
  rw [Bool.and_eq_true, Option.any_eq_true] at hp
  obtain ⟨_, u, hu, hne⟩ := hp
  rw [(h i r hr).2 u hu, bne_self_eq_false] at hne
  cases hne

/-- A transaction that is alone calls the sequential `enqueue`. -/
theorem enqueue_of_alone (h : db.Alone t) (env : OrmEnv) (now : Time) (a : EnqueueArgs) :
    (db.enqueue t env now a).map (fun o ↦ o.1.map fun j ↦ (o.2.index, j)) =
      some (JobWorker.enqueue env now db.index a) := by
  have hsequential : JobWorker.enqueue env now db.index a = (checkEnqueue env a).bind fun eta ↦
      match (storedIdentityKey a.identityKey).bind (findByIdentityKey env db.index) with
      | some existing => .ok (db.index, existing)
      | none => db.index.create (enqueueVals env now a eta) := by
    unfold JobWorker.enqueue checkEnqueue
    split
    · rfl
    split
    · rfl
    · rfl
  have hcreate (vals : Job) : db.create t vals = db.index.create vals := by
    rw [create, h.view]
    split
    · next hp => rw [Store.create, if_pos hp]
    · rfl
  rw [hsequential]
  unfold Database.enqueue
  cases checkEnqueue env a with
  | error e => rfl
  | ok eta =>
    dsimp only [Except.bind]
    rw [h.view]
    cases (storedIdentityKey a.identityKey).bind (findByIdentityKey env db.index) with
    | some existing => rfl
    | none =>
      dsimp only
      rw [h.awaits, if_neg Bool.false_ne_true, hcreate]
      cases db.index.create (enqueueVals env now a eta) <;> rfl

end Alone

/-! ### Two transactions -/

/-- A call with a key. -/
def importArgs : EnqueueArgs :=
  { modelName := "res.partner", methodName := "ping", identityKey := some "import" }

/-- Its key. -/
def importKey : IdentityKey := ⟨"import", by decide⟩

/-- The checks of `enqueue` let it pass. -/
theorem checkEnqueue_import : ∃ eta, checkEnqueue {} importArgs = .ok eta := by
  have heval : (checkEnqueue {} importArgs).toOption.isSome = true := by decide +kernel
  cases h : checkEnqueue {} importArgs with
  | ok eta => exact ⟨eta, rfl⟩
  | error e => rw [h] at heval; cases heval

/-- Every call with these arguments asks for the key. -/
theorem asks_import {db db' : Database} {t : Nat} {now : Time}
    {result : Except OrmError JobId} :
    (⟨db, t, {}, now, importArgs, result, db'⟩ : Call).Asks importKey :=
  ⟨rfl, checkEnqueue_import, nofun⟩

/-- One behind the other, both calls return one job. -/
theorem linearizable_iff_inTurn : ∃ (calls : List Call) (db : Database),
    History .empty calls db ∧ calls.map (fun c ↦ c.result.toOption) = [some 1, some 1] ∧
    ∀ c ∈ calls, c.Asks importKey → c.Returns importKey := by
  have hrun : (((idle .empty).begin 0).enqueue 0 {} 0 importArgs).bind (fun o₁ ↦
      (((o₁.2.commit 0).begin 1).enqueue 1 {} 0 importArgs).map fun o₂ ↦
        (findByIdentityKey {} (((o₁.2.commit 0).begin 1).view 1) importKey, o₁.1.toOption,
          o₂.1.toOption)) = some (some 1, some 1, some 1) := by decide +kernel
  obtain ⟨⟨res₁, db₁⟩, h₁, hrun⟩ := Option.bind_eq_some_iff.mp hrun
  obtain ⟨⟨res₂, db₂⟩, h₂, hrun⟩ := Option.map_eq_some_iff.mp hrun
  simp only [Prod.mk.injEq] at hrun
  obtain ⟨hfind, hres₁, hres₂⟩ := hrun
  have hsnapshot : (db₁.commit 0).snapshot 1 = none := by
    rw [commit, snapshot_of_enqueue h₁]
    rfl
  have hopen : db₁.snapshot 0 ≠ none := by rw [snapshot_of_enqueue h₁]; simp [begin]
  have hfirst := ((History.idle (s := .empty)).begin (t := 0) rfl).enqueue (by simp [begin]) h₁
  have hhist := ((hfirst.commit hopen).begin hsnapshot).enqueue (by simp [begin]) h₂
  refine ⟨_, db₂, hhist, by simp [hres₁, hres₂], ((linearizable_iff hhist).mpr ?_).2⟩
  rintro c hc -
  rw [List.mem_cons, List.mem_singleton] at hc
  rcases hc with rfl | rfl
  · exact (shows_of_search hfind).2
  · intro i r hr
    cases (Store.get?_empty i).symm.trans hr

/-- The row of the other caller is committed behind the snapshot. -/
theorem not_linearizable_race : ¬ ∀ (s : Store) (calls : List Call) (db : Database)
    (key : IdentityKey), History s calls db →
      ∀ c ∈ calls, c.Asks key → c.Returns key := by
  intro hall
  have hrun : ((((idle .empty).begin 0).begin 1).enqueue 0 {} 0 importArgs).bind (fun o₁ ↦
      ((o₁.2.commit 0).enqueue 1 {} 0 importArgs).map fun o₂ ↦ o₂.1.toOption) =
      some none := by decide +kernel
  obtain ⟨⟨res₁, db₁⟩, h₁, hrun⟩ := Option.bind_eq_some_iff.mp hrun
  obtain ⟨⟨res₂, db₂⟩, h₂, hres₂⟩ := Option.map_eq_some_iff.mp hrun
  have hopen : ∀ t < 2, db₁.snapshot t ≠ none := by
    intro t ht
    rw [snapshot_of_enqueue h₁]
    rcases Nat.le_one_iff_eq_zero_or_eq_one.mp (Nat.le_of_lt_succ ht) with rfl | rfl <;>
      simp [begin]
  have hfirst := (((History.idle (s := .empty)).begin (t := 0) rfl).begin (t := 1) rfl).enqueue
    (by simp [begin]) h₁
  have hhist := (hfirst.commit (hopen 0 (by decide))).enqueue
    (by simpa [commit] using hopen 1 (by decide)) h₂
  obtain ⟨j, hj, _⟩ := hall .empty _ db₂ importKey hhist _ List.mem_cons_self asks_import
  rw [show res₂ = .ok j from hj] at hres₂
  cases hres₂

end Database
end JobWorker
