import JobWorker.Base.Table
import JobWorker.Models.Job

/-!
# The job store

The `queue_job` table together with its partial unique index on `identity_key`
(`job_worker/models/queue_job.py:283–288`). Three primitives change it: `update` is a
statement that activates no row and so cannot violate the index, `write` an ORM write of
one row's state under `_check_identity_key_state_unique`
(`models/queue_job.py:448–464`), `create` an insertion. Searches run in an environment
whose record rules hide no row, as the worker's superuser environment.
-/

namespace JobWorker

open Relational

/-- Two rows would collide in the partial unique index. -/
def Job.Collide (a b : Job) : Prop :=
  a.identityKey.isSome = true ∧ a.identityKey = b.identityKey ∧
    a.state.isActive = true ∧ b.state.isActive = true

instance (a b : Job) : Decidable (a.Collide b) := by unfold Job.Collide; infer_instance

/-- Collision does not depend on the order of the two rows. -/
theorem Job.Collide.symm {a b : Job} (h : a.Collide b) : b.Collide a :=
  ⟨h.2.1 ▸ h.1, h.2.1.symm, h.2.2.2, h.2.2.1⟩

/-- The job table with its sequence and its unique index. -/
structure Store where
  jobs : Table JobId Job
  nextId : JobId
  lt_nextId : ∀ (i : JobId) (r : Job), jobs[i]? = some r → i < nextId
  identityKeyActiveUniq : ∀ (i j : JobId) (a b : Job), jobs[i]? = some a →
    jobs[j]? = some b → a.Collide b → i = j

namespace Store

/-- `browse(i)`, absent for a deleted or never assigned id. -/
def get? (s : Store) (i : JobId) : Option Job := s.jobs[i]?

/-- The state column of one row. -/
def stateOf (s : Store) (i : JobId) : Option JobState := (s.get? i).map Job.state

/-- A statement keeps identity keys and activates no row that was inactive. -/
def Keeps (s : Store) (p : JobId → Job → Bool) (f : JobId → Job → Job) : Prop :=
  ∀ i r, s.get? i = some r → p i r = true →
    (f i r).identityKey = r.identityKey ∧
      ((f i r).state.isActive = true → r.state.isActive = true)

private theorem lt_nextId_updateWhere (s : Store) (p : JobId → Job → Bool)
    (f : JobId → Job → Job) (i : JobId) (r : Job)
    (h : (s.jobs.updateWhere p f)[i]? = some r) : i < s.nextId := by
  rw [Table.getElem?_updateWhere, Option.map_eq_some_iff] at h
  obtain ⟨a, ha, _⟩ := h
  exact s.lt_nextId i a ha

/-- `UPDATE queue_job SET f WHERE p` for a statement that activates no row. -/
def update (s : Store) (p : JobId → Job → Bool) (f : JobId → Job → Job)
    (h : s.Keeps p f) : Store where
  jobs := s.jobs.updateWhere p f
  nextId := s.nextId
  lt_nextId := lt_nextId_updateWhere s p f
  identityKeyActiveUniq := by
    intro i j a b hi hj hc
    rw [Table.getElem?_updateWhere, Option.map_eq_some_iff] at hi hj
    obtain ⟨a', ha', rfl⟩ := hi
    obtain ⟨b', hb', rfl⟩ := hj
    -- Each side kept its key and was active before, so the old rows collide already.
    have keep (k : JobId) (r : Job) (hr : s.jobs[k]? = some r) :
        (if p k r = true then f k r else r).identityKey = r.identityKey ∧
          ((if p k r = true then f k r else r).state.isActive = true →
            r.state.isActive = true) := by
      split
      · next hp => exact h k r hr hp
      · exact ⟨rfl, id⟩
    obtain ⟨hka, hsa⟩ := keep i a' ha'
    obtain ⟨hkb, hsb⟩ := keep j b' hb'
    refine s.identityKeyActiveUniq i j a' b' ha' hb' ⟨?_, ?_, hsa hc.2.2.1, hsb hc.2.2.2⟩
    · rw [← hka]; exact hc.1
    · rw [← hka, ← hkb]; exact hc.2.1

/-- A row after a statement is the old row, rewritten exactly when it matched. -/
@[simp] theorem get?_update (s : Store) (p : JobId → Job → Bool) (f : JobId → Job → Job)
    (h : s.Keeps p f) (i : JobId) :
    (s.update p f h).get? i = (s.get? i).map fun r ↦ if p i r then f i r else r :=
  Table.getElem?_updateWhere s.jobs p f i

/-- `UPDATE queue_job SET f WHERE id = i` for a statement that does not activate the row. -/
def updateRow (s : Store) (i : JobId) (f : Job → Job)
    (h : ∀ r, s.get? i = some r → (f r).identityKey = r.identityKey ∧
      ((f r).state.isActive = true → r.state.isActive = true)) : Store :=
  s.update (fun j _ ↦ j == i) (fun _ ↦ f) fun j r hr hj ↦ by
    rw [beq_iff_eq] at hj
    exact h r (hj ▸ hr)

/-- A statement on one row is seen at that row only. -/
@[simp] theorem get?_updateRow (s : Store) (i : JobId) (f : Job → Job)
    (h : ∀ r, s.get? i = some r → (f r).identityKey = r.identityKey ∧
      ((f r).state.isActive = true → r.state.isActive = true)) (j : JobId) :
    (s.updateRow i f h).get? j = if j = i then (s.get? j).map f else s.get? j := by
  refine (get?_update s _ _ _ j).trans ?_
  by_cases hj : j = i
  · simp only [hj, beq_self_eq_true, if_true]
  · simp only [beq_iff_eq, hj, if_false, Option.map_id_fun', id]

/-- Another active row holds the identity key of row `i`: the search shared by
`_check_identity_key_state_unique` and `button_requeue`;
`models/queue_job.py:453–460,693–700`. -/
def identityKeyDuplicate (s : Store) (i : JobId) : Bool :=
  match s.get? i with
  | none => false
  | some r => r.identityKey.isSome && 0 < s.jobs.count fun j q ↦
      j != i && q.identityKey == r.identityKey && q.state.isActive

/-- The duplicate search finds another active row with the same key. -/
theorem identityKeyDuplicate_iff {s : Store} {i : JobId} :
    s.identityKeyDuplicate i = true ↔ ∃ r, s.get? i = some r ∧ r.identityKey.isSome = true ∧
      ∃ j q, s.get? j = some q ∧ j ≠ i ∧ q.identityKey = r.identityKey ∧
        q.state.isActive = true := by
  unfold identityKeyDuplicate
  cases h : s.get? i with
  | none => simp
  | some r =>
    simp only [Bool.and_eq_true, decide_eq_true_eq, Option.some.injEq, exists_eq_left']
    apply and_congr_right
    intro _
    rw [Table.count, List.length_pos_iff_exists_mem]
    simp only [Table.mem_select, Bool.and_eq_true, bne_iff_ne, beq_iff_eq, and_assoc]
    exact Iff.rfl

/-- The unique index leaves an active row without a duplicate. -/
theorem identityKeyDuplicate_of_active {s : Store} {i : JobId} {r : Job}
    (h : s.get? i = some r) (ha : r.state.isActive = true) :
    s.identityKeyDuplicate i = false := by
  rw [Bool.eq_false_iff, ne_eq, identityKeyDuplicate_iff]
  rintro ⟨r', hr', hk, j, q, hq, hne, hkey, hqa⟩
  rw [h, Option.some.injEq] at hr'
  subst hr'
  exact hne (s.identityKeyActiveUniq j i q r hq h ⟨by rwa [hkey], hkey, hqa, ha⟩)

/-- `record.write(f)` of values that include the state: the constraint runs on the row,
then the row is rewritten; `models/queue_job.py:448–464`. -/
def write (s : Store) (i : JobId) (f : Job → Job)
    (hk : ∀ r, (f r).identityKey = r.identityKey) : Except OrmError Store :=
  if h : s.identityKeyDuplicate i = true then
    .error (.validationError "Job with this identity key already exists in the same state.")
  else .ok {
    jobs := s.jobs.updateWhere (fun j _ ↦ j == i) fun _ ↦ f
    nextId := s.nextId
    lt_nextId := lt_nextId_updateWhere s _ _
    identityKeyActiveUniq := by
      intro j k a b hj hk' hc
      rw [Table.getElem?_updateWhere, Option.map_eq_some_iff] at hj hk'
      obtain ⟨a', ha', rfl⟩ := hj
      obtain ⟨b', hb', rfl⟩ := hk'
      simp only [beq_iff_eq] at hc
      -- A collision with the written row is what the constraint has excluded.
      have clash (m n : JobId) (x y : Job) (hx : s.get? m = some x) (hy : s.get? n = some y)
          (hm : m = i) (hn : n ≠ i) (hi : x.identityKey.isSome = true)
          (he : y.identityKey = x.identityKey) (hya : y.state.isActive = true) : False := by
        subst hm
        exact h (identityKeyDuplicate_iff.mpr ⟨x, hx, hi, n, y, hy, hn, he, hya⟩)
      by_cases hji : j = i <;> by_cases hki : k = i
      · rw [hji, hki]
      · rw [if_pos hji, if_neg hki] at hc
        refine (clash j k a' b' ha' hb' hji hki ?_ ?_ hc.2.2.2).elim
        · rw [← hk]; exact hc.1
        · rw [← hk a']; exact hc.2.1.symm
      · rw [if_neg hji, if_pos hki] at hc
        refine (clash k j b' a' hb' ha' hki hji ?_ ?_ hc.2.2.1).elim
        · rw [← hk b', ← hc.2.1]; exact hc.1
        · rw [← hk b']; exact hc.2.1
      · rw [if_neg hji, if_neg hki] at hc
        exact s.identityKeyActiveUniq j k a' b' ha' hb' hc }

section Write

variable {s s' : Store} {i : JobId} {f : Job → Job}
  {hk : ∀ r, (f r).identityKey = r.identityKey}

/-- A write of a state succeeds exactly when no other active row holds the key. -/
theorem write_isOk_iff : (∃ s', s.write i f hk = .ok s') ↔ s.identityKeyDuplicate i = false := by
  unfold write
  split
  · next h => simp [h]
  · next h => simpa using h

/-- A successful write changes its own row only. -/
theorem get?_write (h : s.write i f hk = .ok s') (j : JobId) :
    s'.get? j = if j = i then (s.get? j).map f else s.get? j := by
  unfold write at h
  split at h
  · cases h
  · cases h
    refine (Table.getElem?_updateWhere s.jobs _ _ j).trans ?_
    by_cases hj : j = i
    · simp only [hj, beq_self_eq_true, if_true]; rfl
    · simp only [beq_iff_eq, hj, if_false, Option.map_id_fun']; rfl

end Write

/-- `self.create(vals)` under the foreign key of `parent_id` and the unique index;
`models/queue_job.py:1037–1039`. -/
def create (s : Store) (vals : Job) : Except OrmError (Store × JobId) :=
  if vals.parentId.any fun p ↦ (s.get? p).isNone then .error .integrityError
  else if h : 0 < s.jobs.count fun _ q ↦ decide (q.Collide vals) then .error .integrityError
  else .ok ({
    jobs := s.jobs.insert s.nextId vals
    nextId := s.nextId + 1
    lt_nextId := by
      intro i r hr
      rw [Table.getElem?_insert] at hr
      split at hr
      · next hi => exact hi ▸ Nat.lt_succ_self _
      · exact Nat.lt_succ_of_lt (s.lt_nextId i r hr)
    identityKeyActiveUniq := by
      intro i j a b hi hj hc
      have free (k : JobId) (q : Job) (hq : s.jobs[k]? = some q) : ¬ q.Collide vals := by
        intro hv
        refine h (List.length_pos_iff_exists_mem.mpr ⟨k, Table.mem_select.mpr ⟨q, hq, ?_⟩⟩)
        simpa using hv
      rw [Table.getElem?_insert] at hi hj
      split at hi <;> split at hj
      · next hi' hj' => exact hi'.symm.trans hj'
      · cases hi
        exact (free j b hj hc.symm).elim
      · cases hj
        exact (free i a hi hc).elim
      · exact s.identityKeyActiveUniq i j a b hi hj hc }, s.nextId)

section Create

variable {s s' : Store} {vals : Job} {i : JobId}

/-- The foreign key holds when the parent is there. -/
theorem not_any_isNone {parentId : Option JobId} {get? : JobId → Option Job}
    (h : ∀ p, parentId = some p → (get? p).isSome = true) :
    ¬ (parentId.any fun p ↦ (get? p).isNone) = true := by
  rw [Option.any_eq_true]
  rintro ⟨p, hp, hn⟩
  rw [Option.isNone_iff_eq_none] at hn
  have hsome := h p hp
  rw [hn] at hsome
  cases hsome

/-- A creation whose parent is there succeeds when no row collides with the new one. -/
theorem exists_create_iff (hparent : ∀ p, vals.parentId = some p → (s.get? p).isSome = true) :
    (∃ out, s.create vals = .ok out) ↔ ∀ i r, s.get? i = some r → ¬ r.Collide vals := by
  have hcount : (0 < s.jobs.count fun _ q ↦ decide (q.Collide vals)) ↔
      ∃ i r, s.get? i = some r ∧ r.Collide vals := by
    rw [Table.count, List.length_pos_iff_exists_mem]
    simp only [Table.mem_select, decide_eq_true_eq]
    exact Iff.rfl
  unfold create
  rw [if_neg (not_any_isNone hparent)]
  split
  · next h =>
    obtain ⟨i, r, hr, hc⟩ := hcount.mp h
    refine iff_of_false ?_ fun hfree ↦ hfree i r hr hc
    rintro ⟨out, hout⟩
    cases hout
  · next h => exact iff_of_true ⟨_, rfl⟩ fun i r hr hc ↦ h (hcount.mpr ⟨i, r, hr, hc⟩)

/-- A creation fails with a constraint error only. -/
theorem create_eq_error {e : OrmError} (h : s.create vals = .error e) : e = .integrityError := by
  unfold create at h
  split at h
  · cases h
    rfl
  split at h
  · cases h
    rfl
  · cases h

/-- A created row takes the next id of the sequence and changes no other row. -/
theorem get?_create (h : s.create vals = .ok (s', i)) (j : JobId) :
    s'.get? j = if j = i then some vals else s.get? j := by
  unfold create at h
  split at h
  · cases h
  split at h
  · cases h
  · cases h
    refine (Table.getElem?_insert s.jobs _ j vals).trans ?_
    simp only [eq_comm (a := j)]
    rfl

/-- The id of a created row is the next one of the sequence. -/
theorem create_nextId (h : s.create vals = .ok (s', i)) :
    i = s.nextId ∧ s'.nextId = s.nextId + 1 := by
  unfold create at h
  split at h
  · cases h
  split at h
  · cases h
  · cases h
    exact ⟨rfl, rfl⟩

/-- A created row has a fresh id. -/
theorem create_fresh (h : s.create vals = .ok (s', i)) : s.get? i = none := by
  unfold create at h
  split at h
  · cases h
  split at h
  · cases h
  · cases h
    cases hr : s.get? s.nextId with
    | none => rfl
    | some r => exact absurd (s.lt_nextId _ r hr) (Nat.lt_irrefl _)

/-- The created row. -/
theorem get?_create_self (h : s.create vals = .ok (s', i)) : s'.get? i = some vals := by
  rw [get?_create h, if_pos rfl]

/-- A creation keeps every row. -/
theorem get?_create_of_some {j : JobId} {r : Job} (h : s.create vals = .ok (s', i))
    (hr : s.get? j = some r) : s'.get? j = some r := by
  rw [get?_create h, if_neg, hr]
  rintro rfl
  rw [create_fresh h] at hr
  cases hr

/-- A row behind a creation is the created one or was there before. -/
theorem get?_create_cases {j : JobId} {r : Job} (h : s.create vals = .ok (s', i))
    (hr : s'.get? j = some r) : j = i ∧ r = vals ∨ s.get? j = some r := by
  rw [get?_create h] at hr
  split at hr
  · next hj =>
    cases hr
    exact .inl ⟨hj, rfl⟩
  · exact .inr hr

end Create

/-- The empty table with its sequence at the first id. -/
def empty : Store where
  jobs := ∅
  nextId := 1
  lt_nextId := by simp
  identityKeyActiveUniq := by simp

/-- The empty table has no row. -/
theorem get?_empty (i : JobId) : empty.get? i = none := by simp [get?, empty]

/-- Rows inserted one after another into the empty table; a refused row is left out. -/
def ofRows (rows : List Job) : Store :=
  rows.foldl (fun s vals ↦ match s.create vals with
    | .ok (s, _) => s
    | .error _ => s) empty

/-! ### The graph of a store -/

/-- Row `i` is waiting. -/
def Waiting (s : Store) (i : JobId) : Prop := ∃ r, s.get? i = some r ∧ r.isWaiting = true

/-- Row `i` is a child of `q`. -/
def ChildOf (s : Store) (q i : JobId) : Prop := ∃ r, s.get? i = some r ∧ r.parentId = some q

/-- Row `i` lists `q` among its dependencies. -/
def DependsOn (s : Store) (q i : JobId) : Prop :=
  ∃ r, s.get? i = some r ∧ r.dependsOn q = true

/-- Row `i` waits on `q` along one of the two axes. -/
def WaitsOn (s : Store) (q i : JobId) : Prop := ∃ r, s.get? i = some r ∧ r.WaitsOn q

/-- Row `i` runs on failure only. -/
def OnError (s : Store) (i : JobId) : Prop := ∃ r, s.get? i = some r ∧ r.runOnFailure = true

/-- Row `i` runs on success only. -/
def OnDone (s : Store) (i : JobId) : Prop := ∃ r, s.get? i = some r ∧ r.runOnFailure = false

/-- Two stores hold the same rows, equal in the column `c`. -/
def SameColumn {α : Type} (c : Job → α) (s s' : Store) : Prop :=
  ∀ i, (s'.get? i).map c = (s.get? i).map c

/-- Two stores hold the same rows with the same wiring. -/
abbrev SameWiring (s s' : Store) : Prop := SameColumn Job.wiring s s'

/-- Two stores hold the same rows with the same pending counts. -/
abbrev SameCounts (s s' : Store) : Prop := SameColumn Job.pendingDependencyCount s s'

/-- No row becomes active on the way from `s` to `s'`. -/
def Deactivates (s s' : Store) : Prop :=
  ∀ i r', s'.get? i = some r' → r'.state.isActive = true →
    ∃ r, s.get? i = some r ∧ r.identityKey = r'.identityKey ∧ r.state.isActive = true

section Graph

variable {s s' s'' : Store} {i q : JobId} {r : Job}

/-- A row decides its own waiting. -/
theorem waiting_iff (h : s.get? i = some r) : s.Waiting i ↔ r.isWaiting = true := by
  simp [Waiting, h]

/-- A row decides its own parent. -/
theorem childOf_iff (h : s.get? i = some r) : s.ChildOf q i ↔ r.parentId = some q := by
  simp [ChildOf, h]

/-- A row decides its own dependencies. -/
theorem dependsOn_iff (h : s.get? i = some r) : s.DependsOn q i ↔ r.dependsOn q = true := by
  simp [DependsOn, h]

/-- A row decides what it waits on. -/
theorem waitsOn_iff (h : s.get? i = some r) : s.WaitsOn q i ↔ r.WaitsOn q := by
  simp [WaitsOn, h]

/-- The two axes of waiting. -/
theorem waitsOn_iff_childOf_or_dependsOn : s.WaitsOn q i ↔ s.ChildOf q i ∨ s.DependsOn q i := by
  simp only [WaitsOn, ChildOf, DependsOn, Job.WaitsOn, and_or_left, exists_or]

/-- A row decides its own disposition. -/
theorem onError_iff (h : s.get? i = some r) : s.OnError i ↔ r.runOnFailure = true := by
  simp [OnError, h]

/-- A row decides its own disposition. -/
theorem onDone_iff (h : s.get? i = some r) : s.OnDone i ↔ r.runOnFailure = false := by
  simp [OnDone, h]

/-- Every store agrees with itself. -/
theorem SameColumn.refl {α : Type} {c : Job → α} (s : Store) : SameColumn c s s := fun _ ↦ rfl

/-- Agreement over two calls. -/
theorem SameColumn.trans {α : Type} {c : Job → α} (h : SameColumn c s s')
    (h' : SameColumn c s' s'') : SameColumn c s s'' := fun i ↦ (h' i).trans (h i)

/-- A row keeps its value. -/
theorem SameColumn.row {α : Type} {c : Job → α} (h : SameColumn c s s')
    (hr : s.get? i = some r) : ∃ r', s'.get? i = some r' ∧ c r' = c r := by
  have hi := h i
  rw [hr] at hi
  exact Option.map_eq_some_iff.mp hi

/-- A row had its value before. -/
theorem SameColumn.row_before {α : Type} {c : Job → α} (h : SameColumn c s s') {r' : Job}
    (hr' : s'.get? i = some r') : ∃ r, s.get? i = some r ∧ c r' = c r := by
  have hi := h i
  rw [hr'] at hi
  obtain ⟨r, hr, hc⟩ := Option.map_eq_some_iff.mp hi.symm
  exact ⟨r, hr, hc.symm⟩

/-- No row appears. -/
theorem SameColumn.none {α : Type} {c : Job → α} (h : SameColumn c s s')
    (hr : s.get? i = none) : s'.get? i = none := by
  have hi := h i
  rwa [hr, Option.map_none, Option.map_eq_none_iff] at hi

/-- A statement that keeps a column of its rows keeps it in the store. -/
theorem sameColumn_update {α : Type} {c : Job → α} {p : JobId → Job → Bool}
    {f : JobId → Job → Job} (h : s.Keeps p f) (hf : ∀ i r, c (f i r) = c r) :
    SameColumn c s (s.update p f h) := by
  intro i
  rw [get?_update, Option.map_map]
  congr 1
  ext r
  rw [Function.comp_apply]
  split
  · exact hf i r
  · rfl

/-- A write that keeps a column of its row keeps it in the store. -/
theorem sameColumn_write {α : Type} {c : Job → α} {f : Job → Job}
    {hk : ∀ r, (f r).identityKey = r.identityKey} (h : s.write i f hk = .ok s')
    (hf : ∀ r, c (f r) = c r) : SameColumn c s s' := by
  intro j
  rw [get?_write h]
  split
  · rw [Option.map_map]
    congr 1
    ext r
    exact hf r
  · rfl

private theorem exists_row_iff (h : s.SameWiring s') {P : Job → Prop}
    (hP : ∀ a b : Job, a.wiring = b.wiring → (P a ↔ P b)) :
    (∃ r, s'.get? i = some r ∧ P r) ↔ ∃ r, s.get? i = some r ∧ P r := by
  constructor
  · rintro ⟨r', hr', hp⟩
    obtain ⟨r, hr, hw⟩ := h.row_before hr'
    exact ⟨r, hr, (hP r' r hw).mp hp⟩
  · rintro ⟨r, hr, hp⟩
    obtain ⟨r', hr', hw⟩ := h.row hr
    exact ⟨r', hr', (hP r' r hw).mpr hp⟩

/-- Same wiring, same children. -/
theorem SameColumn.childOf (h : s.SameWiring s') : s'.ChildOf q i ↔ s.ChildOf q i :=
  exists_row_iff h fun _ _ hw ↦ by rw [Job.parentId_of_wiring hw]

/-- Same wiring, same dependents. -/
theorem SameColumn.dependsOn (h : s.SameWiring s') : s'.DependsOn q i ↔ s.DependsOn q i :=
  exists_row_iff h fun _ _ hw ↦ by rw [Job.dependsOn_of_wiring hw]

/-- Same wiring, same prerequisites. -/
theorem SameColumn.waitsOn (h : s.SameWiring s') : s'.WaitsOn q i ↔ s.WaitsOn q i :=
  exists_row_iff h fun _ _ hw ↦ Job.waitsOn_of_wiring hw

/-- Same wiring, same dispositions. -/
theorem SameColumn.onError (h : s.SameWiring s') : s'.OnError i ↔ s.OnError i :=
  exists_row_iff h fun _ _ hw ↦ by rw [Job.runOnFailure_of_wiring hw]

/-- Same wiring, same dispositions. -/
theorem SameColumn.onDone (h : s.SameWiring s') : s'.OnDone i ↔ s.OnDone i :=
  exists_row_iff h fun _ _ hw ↦ by rw [Job.runOnFailure_of_wiring hw]

end Graph

section Deactivates

variable {s s' s'' : Store} {i : JobId} {r : Job}

/-- Nothing happens on the empty way. -/
theorem Deactivates.refl (s : Store) : s.Deactivates s := fun _ r hr ha ↦ ⟨r, hr, rfl, ha⟩

/-- Two ways that activate nothing, one after the other. -/
theorem Deactivates.trans (h : s.Deactivates s') (h' : s'.Deactivates s'') :
    s.Deactivates s'' := by
  intro i r'' hr'' ha''
  obtain ⟨r', hr', hk', ha'⟩ := h' i r'' hr'' ha''
  obtain ⟨r, hr, hk, ha⟩ := h i r' hr' ha'
  exact ⟨r, hr, hk.trans hk', ha⟩

/-- A statement that keeps keys and activates no row. -/
theorem deactivates_update {p : JobId → Job → Bool} {f : JobId → Job → Job}
    (h : s.Keeps p f) : s.Deactivates (s.update p f h) := by
  intro i r' hr' ha
  rw [get?_update, Option.map_eq_some_iff] at hr'
  obtain ⟨r, hr, rfl⟩ := hr'
  refine ⟨r, hr, ?_⟩
  split at ha
  · next hp =>
    rw [if_pos hp]
    exact ⟨(h i r hr hp).1.symm, (h i r hr hp).2 ha⟩
  · next hp =>
    rw [if_neg hp]
    exact ⟨rfl, ha⟩

/-- A write of an inactive state. -/
theorem deactivates_write {f : Job → Job} {hk : ∀ r, (f r).identityKey = r.identityKey}
    (h : s.write i f hk = .ok s') (hf : ∀ r, (f r).state.isActive = false) :
    s.Deactivates s' := by
  intro j r' hr' ha
  rw [get?_write h] at hr'
  split at hr'
  · obtain ⟨r, _, rfl⟩ := Option.map_eq_some_iff.mp hr'
    rw [hf] at ha
    cases ha
  · exact ⟨r', hr', rfl, ha⟩

/-- A job that was active on the way has no duplicate of its key at the end. -/
theorem identityKeyDuplicate_of_deactivates (h : s.Deactivates s') (hsame : s.SameWiring s')
    (hr : s.get? i = some r) (ha : r.state.isActive = true) :
    s'.identityKeyDuplicate i = false := by
  rw [Bool.eq_false_iff, ne_eq, identityKeyDuplicate_iff]
  rintro ⟨r', hr', hk, j, q', hq', hne, hkey, hqa'⟩
  obtain ⟨q, hq, hqk, hqa⟩ := h j q' hq' hqa'
  obtain ⟨r'', hr'', hwire⟩ := hsame.row hr
  rw [hr'] at hr''
  cases hr''
  have hrk := Job.identityKey_of_wiring hwire
  refine hne (s.identityKeyActiveUniq j i q r hq hr ⟨?_, ?_, hqa, ha⟩)
  · rwa [hqk, hkey]
  · rw [hqk, hkey, hrk]

end Deactivates

end Store
end JobWorker
