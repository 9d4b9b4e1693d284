import JobWorker.Base.Runs
import JobWorker.Base.UniqueColumn
import JobWorker.Models.Job

/-!
# Channel and function records

Jobs point at a record for their channel and one for their function, which the first job that
needs it creates (`job_worker/models/queue_job.py:393–430`). The names of the records are unique
(`models/queue_job_channel.py:12`, `models/queue_job_function.py:12`), and transactions are
snapshot-isolated, so that the second search of `_get_or_create_lookup` finds nothing more than
the first.
-/

namespace JobWorker

open Relational Transition

/-- What `_compute_channel_id` looks up; `models/queue_job.py:408–417`. -/
def Job.channelName (r : Job) : Option String := r.channel.filter (· ≠ "")

/-- What `_compute_function_id` looks up; `models/queue_job.py:419–430`. -/
def Job.functionName (r : Job) : Option String :=
  if r.payload.model = "" ∨ r.payload.method = "" then none
  else some s!"{r.payload.model}.{r.payload.method}"

/-- `cache`: the ids by name, with `None` for `False`. -/
abbrev LookupCache := List (String × Option Nat)

/-- `_get_or_create_lookup` in transaction `t`: the id, the cache and the table behind it, or
nothing as long as the insertion waits; `models/queue_job.py:393–406`. -/
def getOrCreateLookup (column : UniqueColumn String) (t : Nat) (ht : column.isOpen t = true)
    (name : String) (cache : LookupCache) :
    Option (Option Nat × LookupCache × UniqueColumn String) :=
  match cache.lookup name with
  | some id => some (id, cache, column)
  | none =>
    match column.find t name with
    | some record => some (some record, (name, some record) :: cache, column)
    | none =>
      match column.insert t ht name with
      | .waits => none
      | .inserted record column => some (some record, (name, some record) :: cache, column)
      | .duplicate =>
        -- The savepoint is rolled back, and the second search reads the same snapshot.
        some (column.find t name, (name, column.find t name) :: cache, column)

/-- What a job has been given, by an open transaction or a committed one. -/
structure LookupResult where
  transaction : Option Nat
  name : String
  id : Option Nat

/-- The records of one of the two tables, the cache of the computation that runs in each open
transaction, and what jobs have been given, without the transactions that were rolled back. -/
structure LookupSystem where
  column : UniqueColumn String
  cache : Nat → LookupCache := fun _ ↦ []
  results : List LookupResult := []

/-- Transactions begin and end, start a computation, and come to the next job of theirs. -/
inductive LookupAction
  | begin (t : Nat)
  | commit (t : Nat)
  | rollback (t : Nat)
  | compute (t : Nat)
  | record (t : Nat) (r : Job)

namespace LookupSystem

/-- Behind an action, if it can happen: an insertion that waits cannot. -/
def next (nameOf : Job → Option String) (s : LookupSystem) :
    LookupAction → Option LookupSystem
  | .begin t => if s.column.isOpen t then none else some { s with column := s.column.begin t }
  | .commit t =>
    if s.column.isOpen t then
      some {
        column := s.column.commit t
        cache := Function.update s.cache t []
        results := s.results.map fun l ↦
          if l.transaction = some t then { l with transaction := none } else l }
    else none
  | .rollback t =>
    if s.column.isOpen t then
      some {
        column := s.column.rollback t
        cache := Function.update s.cache t []
        results := s.results.filter fun l ↦ l.transaction != some t }
    else none
  | .compute t =>
    if s.column.isOpen t then some { s with cache := Function.update s.cache t [] } else none
  | .record t r =>
    if ht : s.column.isOpen t = true then
      match nameOf r with
      | none => some s
      | some name =>
        (getOrCreateLookup s.column t ht name (s.cache t)).map fun (id, cache, column) ↦ {
          column
          cache := Function.update s.cache t cache
          results := ⟨some t, name, id⟩ :: s.results }
    else none

/-- A table that nobody has used. -/
def idle : LookupSystem := { column := .empty }

end LookupSystem

/-- Runs of the transactions. -/
abbrev LookupRun (nameOf : Job → Option String) :
    List (LookupSystem × LookupAction) → LookupSystem → Prop :=
  Run (· = .idle) fun s a s' ↦ s.next nameOf a = some s'

/-! ### Answers -/

/-- What transaction `t` is to be told about a name: the record that it reads, and nothing when
another transaction has committed the record since `t` began. -/
def Answers (c : UniqueColumn String) (t : Nat) (name : String) : Option Nat → Prop
  | some i => c.rows[i]? = some name ∧ c.visible t i = true
  | none => ∃ i, c.rows[i]? = some name ∧ c.owner i = none ∧ c.visible t i = false

section Answers

variable {c c' : UniqueColumn String} {t u : Nat} {name : String} {id id' : Option Nat}

/-- There is one answer. -/
theorem Answers.unique (h : Answers c t name id) (h' : Answers c t name id') : id = id' := by
  have hdiffer {i j : Nat} (hi : c.rows[i]? = some name) (hj : c.rows[j]? = some name)
      (hvi : c.visible t i = true) (hvj : c.visible t j = false) : False := by
    obtain rfl := c.unique i j name hi hj
    rw [hvi] at hvj
    cases hvj
  cases id with
  | some i =>
    cases id' with
    | some j => rw [c.unique i j name h.1 h'.1]
    | none =>
      obtain ⟨j, hj, _, hvj⟩ := h'
      exact (hdiffer h.1 hj h.2 hvj).elim
  | none =>
    cases id' with
    | some j =>
      obtain ⟨i, hi, _, hvi⟩ := h
      exact (hdiffer h'.1 hi h'.2 hvi).elim
    | none => rfl

/-- An answer stands while the committed rows and those of `t` stay as they are. -/
theorem Answers.mono (h : Answers c t name id)
    (hrow : ∀ i, c.rows[i]? = some name → c.owner i = none ∨ c.owner i = some t →
      c'.rows[i]? = some name ∧ (c.owner i = none → c'.owner i = none) ∧
        c'.visible t i = c.visible t i) : Answers c' t name id := by
  cases id with
  | some i =>
    obtain ⟨hi, _, hv⟩ := hrow i h.1 (UniqueColumn.committed_or_own h.2)
    exact ⟨hi, hv.trans h.2⟩
  | none =>
    obtain ⟨i, hi, hnone, hv⟩ := h
    obtain ⟨hi', hnone', hv'⟩ := hrow i hi (.inl hnone)
    exact ⟨i, hi', hnone' hnone, hv'.trans hv⟩

/-- Another transaction begins. -/
theorem Answers.begin (h : Answers c t name id) (hne : t ≠ u) :
    Answers (c.begin u) t name id :=
  h.mono fun i hi _ ↦ ⟨hi, fun hnone ↦ hnone, UniqueColumn.visible_begin hne i⟩

/-- Another transaction commits. -/
theorem Answers.commit (h : Answers c t name id) (hne : t ≠ u) :
    Answers (c.commit u) t name id :=
  h.mono fun i hi _ ↦ ⟨hi, c.ownerWithout_of_none u, UniqueColumn.visible_ended rfl rfl hne i⟩

/-- Another transaction is rolled back. -/
theorem Answers.rollback (h : Answers c t name id) (hne : t ≠ u) :
    Answers (c.rollback u) t name id := by
  refine h.mono fun i hi howner ↦
    ⟨(c.getElem?_rowsWithout u).mpr ⟨hi, fun hu ↦ ?_⟩, c.ownerWithout_of_none u,
      UniqueColumn.visible_ended rfl rfl hne i⟩
  rcases howner with hnone | ht
  · cases hnone.symm.trans hu
  · exact hne (Option.some.inj (ht.symm.trans hu))

/-- A transaction inserts a row. -/
theorem Answers.insertNew (h : Answers c t name id) {v : String} (hu : c.isOpen u = true)
    (hv : c.holder v = none) : Answers (c.insertNew u v hu hv) t name id := by
  refine h.mono fun i hi _ ↦ ?_
  have hne : i ≠ c.nextId := fun heq ↦ absurd (c.lt_nextId i name hi) (heq ▸ Nat.lt_irrefl _)
  exact ⟨UniqueColumn.getElem?_insertNew.mpr (.inr ⟨hne.symm, hi⟩), (if_neg hne).trans,
    UniqueColumn.visible_insertNew hne⟩

/-- The row that a transaction has inserted is the answer. -/
theorem answers_nextId (ht : c.isOpen t = true) (hv : c.holder name = none) :
    Answers (c.insertNew t name ht hv) t name (some c.nextId) :=
  ⟨UniqueColumn.getElem?_insertNew.mpr (.inl ⟨rfl, rfl⟩), UniqueColumn.visible_nextId⟩

/-- What a search finds is the answer. -/
theorem answers_of_find {i : Nat} (h : c.find t name = some i) : Answers c t name (some i) :=
  UniqueColumn.find_eq_some h

/-- A search that finds nothing, of a name that another transaction has committed. -/
theorem answers_of_duplicate {ht : c.isOpen t = true} (hf : c.find t name = none)
    (h : c.insert t ht name = .duplicate) : Answers c t name none := by
  obtain ⟨i, hi, howner⟩ := UniqueColumn.insert_eq_duplicate h
  have hv : c.visible t i = false := by
    by_contra hv
    rw [UniqueColumn.find_of_visible hi (Bool.not_eq_false _ ▸ hv)] at hf
    cases hf
  refine ⟨i, hi, howner.resolve_right fun hown ↦ ?_, hv⟩
  rw [UniqueColumn.visible, hown, beq_self_eq_true, Bool.true_or] at hv
  cases hv

end Answers

/-! ### One lookup -/

section Lookup

variable {c c' : UniqueColumn String} {t u : Nat} {ht : c.isOpen t = true} {name : String}
  {id : Option Nat} {cache cache' : LookupCache}

/-- The table behind a lookup: at most one row more. -/
inductive LooksUp (c : UniqueColumn String) (t : Nat) (name : String) :
    UniqueColumn String → Prop
  | found : LooksUp c t name c
  | created (ht : c.isOpen t = true) (hv : c.holder name = none) :
      LooksUp c t name (c.insertNew t name ht hv)

/-- What `_get_or_create_lookup` returns is the answer, and what it caches too. -/
theorem answers_of_getOrCreateLookup (hcache : ∀ e ∈ cache, Answers c t e.1 e.2)
    (h : getOrCreateLookup c t ht name cache = some (id, cache', c')) :
    LooksUp c t name c' ∧ Answers c' t name id ∧ ∀ e ∈ cache', Answers c' t e.1 e.2 := by
  have hcons {c' : UniqueColumn String} {id : Option Nat} (hid : Answers c' t name id)
      (hold : ∀ e ∈ cache, Answers c' t e.1 e.2) :
      ∀ e ∈ (name, id) :: cache, Answers c' t e.1 e.2 := by
    intro e he
    rcases List.mem_cons.mp he with rfl | he
    · exact hid
    · exact hold e he
  unfold getOrCreateLookup at h
  cases hl : cache.lookup name with
  | some id' =>
    rw [hl] at h
    cases h
    obtain ⟨_, _, rfl, _⟩ := List.lookup_eq_some_iff.mp hl
    exact ⟨.found, hcache (name, id) (by simp), hcache⟩
  | none =>
    rw [hl] at h
    dsimp only at h
    cases hf : c.find t name with
    | some i =>
      rw [hf] at h
      cases h
      exact ⟨.found, answers_of_find hf, hcons (answers_of_find hf) hcache⟩
    | none =>
      rw [hf] at h
      dsimp only at h
      cases hi : c.insert t ht name with
      | waits => rw [hi] at h; cases h
      | duplicate =>
        rw [hi] at h
        cases h
        have hnone := answers_of_duplicate hf hi
        exact ⟨.found, hnone, hcons hnone hcache⟩
      | inserted i c₁ =>
        rw [hi] at h
        cases h
        obtain ⟨hv, rfl, rfl⟩ := UniqueColumn.insert_eq_inserted hi
        have hnew := answers_nextId ht hv
        exact ⟨.created ht hv, hnew, hcons hnew fun e he ↦ (hcache e he).insertNew ht hv⟩

/-- A lookup of a name that has an answer, with a cache that does not know it. -/
theorem getOrCreateLookup_of_answers (h : Answers c t name id) :
    getOrCreateLookup c t ht name [] = some (id, [(name, id)], c) := by
  unfold getOrCreateLookup
  rw [List.lookup_nil]
  dsimp only
  cases id with
  | some i => rw [UniqueColumn.find_of_visible h.1 h.2]
  | none =>
    obtain ⟨i, hi, hnone, hv⟩ := id h
    have hf : c.find t name = none := by
      cases hf : c.find t name with
      | none => rfl
      | some j => cases (answers_of_find hf).unique h
    rw [hf, UniqueColumn.insert_of_committed hi hnone]

/-- The cache changes nothing but itself. -/
theorem getOrCreateLookup_uncached (hcache : ∀ e ∈ cache, Answers c t e.1 e.2)
    (ht : c.isOpen t = true) (name : String) :
    ((getOrCreateLookup c t ht name cache).map fun out ↦ (out.1, out.2.2)) =
      (getOrCreateLookup c t ht name []).map fun out ↦ (out.1, out.2.2) := by
  cases hl : cache.lookup name with
  | some id =>
    obtain ⟨_, _, rfl, _⟩ := List.lookup_eq_some_iff.mp hl
    rw [getOrCreateLookup_of_answers (hcache (name, id) (by simp)), getOrCreateLookup, hl]
    rfl
  | none =>
    unfold getOrCreateLookup
    rw [hl, List.lookup_nil]
    dsimp only
    cases c.find t name with
    | some i => rfl
    | none => cases c.insert t ht name <;> rfl

/-- Nothing is returned for a name that another transaction has committed since. -/
theorem isNone_uncached_iff (ht : c.isOpen t = true) (name : String) :
    (getOrCreateLookup c t ht name []).any (fun out ↦ out.1.isNone) = true ↔
      Answers c t name none := by
  constructor
  · intro h
    obtain ⟨⟨id, cache', c'⟩, hout, hid⟩ := (Option.any_eq_true _ _).mp h
    obtain rfl := Option.isNone_iff_eq_none.mp hid
    obtain ⟨hlooks, hnone, _⟩ := answers_of_getOrCreateLookup (fun e he ↦ by cases he) hout
    cases hlooks with
    | found => exact hnone
    | created _ hv => cases hnone.unique (answers_nextId ht hv)
  · intro h
    rw [getOrCreateLookup_of_answers h]
    rfl

end Lookup

/-! ### Runs -/

/-- A job has been given the record of its name, or nothing; the record is committed or one of
the transaction that has been given it. -/
def Given (c : UniqueColumn String) (l : LookupResult) : Prop :=
  ∃ i, c.rows[i]? = some l.name ∧ (c.owner i = none ∨ c.owner i = l.transaction) ∧
    (l.id = some i ∨ l.id = none)

namespace LookupSystem

/-- Every cache holds answers, and every job has been given one. -/
structure Sound (s : LookupSystem) : Prop where
  cached : ∀ t, ∀ e ∈ s.cache t, Answers s.column t e.1 e.2
  given : ∀ l ∈ s.results, Given s.column l
  closed : ∀ t, s.column.isOpen t = false → s.cache t = []

section Sound

variable {nameOf : Job → Option String} {s s' : LookupSystem} {t : Nat} {r : Job}

/-- The caches behind the end of a computation. -/
theorem cached_update {c : UniqueColumn String} {cache : LookupCache}
    (hnew : ∀ e ∈ cache, Answers c t e.1 e.2)
    (hold : ∀ u, u ≠ t → ∀ e ∈ s.cache u, Answers c u e.1 e.2) (u : Nat) :
    ∀ e ∈ Function.update s.cache t cache u, Answers c u e.1 e.2 := by
  by_cases hu : u = t
  · subst hu
    rw [Function.update_self]
    exact hnew
  · rw [Function.update_of_ne hu]
    exact hold u hu

/-- An emptied cache. -/
theorem closed_update {u : Nat} (h : u ≠ t → s.cache u = []) :
    Function.update s.cache t [] u = [] := by
  by_cases hu : u = t
  · rw [hu, Function.update_self]
  · rw [Function.update_of_ne hu]
    exact h hu

/-- The caches behind the end of a transaction. -/
theorem closed_ended (h : s.Sound) (u : Nat)
    (hu : (s.column.snapshotWithout t u).isSome = false) :
    Function.update s.cache t [] u = [] := by
  refine closed_update fun hne ↦ h.closed u ?_
  rwa [UniqueColumn.snapshotWithout, if_neg hne] at hu

/-- A transaction begins. -/
theorem Sound.begin (h : s.Sound) (hs : s.next nameOf (.begin t) = some s') : s'.Sound := by
  rw [next] at hs
  split at hs
  · cases hs
  · next ht =>
    cases hs
    rw [Bool.not_eq_true] at ht
    refine ⟨fun u e he ↦ ?_, h.given, fun u hu ↦ h.closed u ?_⟩
    · refine (h.cached u e he).begin ?_
      rintro rfl
      rw [h.closed u ht] at he
      cases he
    · by_cases heq : u = t
      · exact heq ▸ ht
      · have hsnap : (s.column.begin t).snapshot u = s.column.snapshot u := if_neg heq
        rwa [UniqueColumn.isOpen, hsnap] at hu

/-- A transaction commits. -/
theorem Sound.commit (h : s.Sound) (hs : s.next nameOf (.commit t) = some s') : s'.Sound := by
  rw [next] at hs
  obtain ⟨_, hs⟩ := Option.ite_none_right_eq_some.mp hs
  cases hs
  refine ⟨cached_update (fun e he ↦ by cases he) fun u hu e he ↦ (h.cached u e he).commit hu,
    fun l hl ↦ ?_, fun u hu ↦ closed_ended h u hu⟩
  obtain ⟨l, hmem, rfl⟩ := List.mem_map.mp hl
  obtain ⟨i, hi, howner, hid⟩ := h.given l hmem
  by_cases ht : l.transaction = some t
  · rw [if_pos ht]
    refine ⟨i, hi, .inl ?_, hid⟩
    rcases howner with hnone | hown
    · exact s.column.ownerWithout_of_none t hnone
    · exact if_pos (hown.trans ht)
  · rw [if_neg ht]
    refine ⟨i, hi, ?_, hid⟩
    rcases howner with hnone | hown
    · exact .inl (s.column.ownerWithout_of_none t hnone)
    · exact .inr ((if_neg fun heq ↦ ht (hown.symm.trans heq)).trans hown)

/-- A transaction is rolled back. -/
theorem Sound.rollback (h : s.Sound) (hs : s.next nameOf (.rollback t) = some s') : s'.Sound := by
  rw [next] at hs
  obtain ⟨_, hs⟩ := Option.ite_none_right_eq_some.mp hs
  cases hs
  refine ⟨cached_update (fun e he ↦ by cases he) fun u hu e he ↦ (h.cached u e he).rollback hu,
    fun l hl ↦ ?_, fun u hu ↦ closed_ended h u hu⟩
  obtain ⟨hmem, ht⟩ := List.mem_filter.mp hl
  rw [bne_iff_ne] at ht
  obtain ⟨i, hi, howner, hid⟩ := h.given l hmem
  have hne : s.column.owner i ≠ some t := by
    intro hown
    rcases howner with hnone | howner
    · cases hnone.symm.trans hown
    · exact ht (howner.symm.trans hown)
  refine ⟨i, (s.column.getElem?_rowsWithout t).mpr ⟨hi, hne⟩, ?_, hid⟩
  have hkept : (s.column.rollback t).owner i = s.column.owner i := if_neg hne
  rwa [hkept]

/-- A lookup. -/
theorem Sound.record (h : s.Sound) (hs : s.next nameOf (.record t r) = some s') : s'.Sound := by
  rw [next] at hs
  split at hs
  · next ht =>
    split at hs
    · cases hs
      exact h
    · next name _ =>
      obtain ⟨⟨id, cache, c'⟩, hlookup, rfl⟩ := Option.map_eq_some_iff.mp hs
      obtain ⟨hlooks, hid, hcache⟩ := answers_of_getOrCreateLookup (h.cached t) hlookup
      have hown : Given c' ⟨some t, name, id⟩ := by
        cases id with
        | some i => exact ⟨i, hid.1, UniqueColumn.committed_or_own hid.2, .inl rfl⟩
        | none =>
          obtain ⟨i, hi, hnone, _⟩ := hid
          exact ⟨i, hi, .inl hnone, .inr rfl⟩
      have hclosed (u : Nat) (hu : s.column.isOpen u = false) :
          Function.update s.cache t cache u = [] := by
        rw [Function.update_of_ne, h.closed u hu]
        rintro rfl
        rw [ht] at hu
        cases hu
      cases hlooks with
      | found =>
        exact ⟨cached_update hcache fun u _ e he ↦ h.cached u e he,
          List.forall_mem_cons.mpr ⟨hown, h.given⟩, hclosed⟩
      | created _ hv =>
        refine ⟨cached_update hcache fun u _ e he ↦ (h.cached u e he).insertNew ht hv,
          List.forall_mem_cons.mpr ⟨hown, fun l hl ↦ ?_⟩, hclosed⟩
        obtain ⟨i, hi, howner, hgiven⟩ := h.given l hl
        have hne : i ≠ s.column.nextId :=
          fun heq ↦ absurd (s.column.lt_nextId i _ hi) (heq ▸ Nat.lt_irrefl _)
        have hkept : s.column.ownerNew t i = s.column.owner i := if_neg hne
        refine ⟨i, UniqueColumn.getElem?_insertNew.mpr (.inr ⟨hne.symm, hi⟩), ?_, hgiven⟩
        rcases howner with hnone | hown
        · exact .inl (hkept.trans hnone)
        · exact .inr (hkept.trans hown)
  · cases hs

/-- Every run is sound. -/
theorem sound {past : List (LookupSystem × LookupAction)} (h : LookupRun nameOf past s) :
    s.Sound := by
  refine h.always ?_ ?_
  · rintro _ rfl
    exact ⟨fun t e he ↦ (by cases he), fun l hl ↦ (by cases hl), fun _ _ ↦ rfl⟩
  · intro s a s' hsound hs
    cases a with
    | begin => exact hsound.begin hs
    | commit => exact hsound.commit hs
    | rollback => exact hsound.rollback hs
    | compute t =>
      rw [next] at hs
      obtain ⟨_, hs⟩ := Option.ite_none_right_eq_some.mp hs
      cases hs
      refine ⟨cached_update (fun e he ↦ by cases he) fun u _ e he ↦ hsound.cached u e he,
        hsound.given, fun u hu ↦ closed_update fun _ ↦ hsound.closed u hu⟩
    | record => exact hsound.record hs

end Sound

/-- **One record for each name**: however transactions interleave, the jobs of the committed ones
and of those in progress have been given one and the same record for a name, which is committed
or their own, or nothing. -/
theorem given_agree {nameOf : Job → Option String}
    {past : List (LookupSystem × LookupAction)} {s : LookupSystem} (h : LookupRun nameOf past s) :
    ∃ recordOf : String → Nat, ∀ l ∈ s.results,
      (l.id = some (recordOf l.name) ∨ l.id = none) ∧
        s.column.rows[recordOf l.name]? = some l.name ∧
          (s.column.owner (recordOf l.name) = none ∨
            s.column.owner (recordOf l.name) = l.transaction) := by
  refine ⟨fun name ↦ (s.column.holder name).getD 0, fun l hl ↦ ?_⟩
  obtain ⟨i, hi, howner, hid⟩ := (sound h).given l hl
  have hholder : (s.column.holder l.name).getD 0 = i := by
    rw [UniqueColumn.holder_eq_some_iff.mpr hi, Option.getD_some]
  dsimp only
  rw [hholder]
  exact ⟨hid, hi, howner⟩

/-- A job of channel `mail`. -/
def mailJob : Job := { payload := .ping, channel := some "mail" }

/-- Two transactions begin, and the first commits the record of `mail`. -/
def mailRace : List LookupAction :=
  [.begin 1, .begin 2, .compute 1, .record 1 mailJob, .commit 1, .compute 2]

/-- The second transaction leaves its job without the record of the first. -/
theorem given_agree_race : ∃ past s, LookupRun Job.channelName past s ∧
    s.results.map LookupResult.id = [none, some 1] ∧
    ∃ recordOf : String → Nat, ∀ l ∈ s.results,
      (l.id = some (recordOf l.name) ∨ l.id = none) ∧
        s.column.rows[recordOf l.name]? = some l.name ∧
          (s.column.owner (recordOf l.name) = none ∨
            s.column.owner (recordOf l.name) = l.transaction) := by
  have hrun : (replay (next Job.channelName) idle (mailRace ++ [.record 2 mailJob])).map
      (fun r ↦ r.2.results.map LookupResult.id) = some [none, some 1] := by decide +kernel
  obtain ⟨⟨past, s⟩, hs, hids⟩ := Option.map_eq_some_iff.mp hrun
  have hrun : LookupRun Job.channelName past s := .of_replay id rfl hs
  exact ⟨past, s, hrun, hids, given_agree hrun⟩

/-- **Nothing is lost but a race**: in every run, the cache of a computation changes no id that
`_get_or_create_lookup` returns and no record that it creates, and a job is left without a record
exactly when another transaction has committed the record since its own began. -/
theorem getOrCreateLookup_eq_uncached {nameOf : Job → Option String}
    {past : List (LookupSystem × LookupAction)} {s : LookupSystem} (h : LookupRun nameOf past s)
    {t : Nat} (ht : s.column.isOpen t = true) (name : String) :
    ((getOrCreateLookup s.column t ht name (s.cache t)).map fun out ↦ (out.1, out.2.2)) =
      ((getOrCreateLookup s.column t ht name []).map fun out ↦ (out.1, out.2.2)) ∧
    ((getOrCreateLookup s.column t ht name (s.cache t)).any (fun out ↦ out.1.isNone) = true ↔
      ∃ i, s.column.rows[i]? = some name ∧ s.column.owner i = none ∧
        s.column.visible t i = false) := by
  have huncached := getOrCreateLookup_uncached ((sound h).cached t) ht name
  refine ⟨huncached, Iff.trans ?_ (isNone_uncached_iff ht name)⟩
  have hany (out : Option (Option Nat × LookupCache × UniqueColumn String)) :
      out.any (fun out ↦ out.1.isNone) =
        (out.map fun out ↦ (out.1, out.2.2)).any fun out ↦ out.1.isNone := by
    cases out <;> rfl
  rw [hany, huncached, ← hany]

/-- The record of `mail` is there, and the second transaction does not read it. -/
theorem getOrCreateLookup_eq_uncached_race : ∃ past s, LookupRun Job.channelName past s ∧
    ∃ ht : s.column.isOpen 2 = true,
      ((getOrCreateLookup s.column 2 ht "mail" (s.cache 2)).any (fun out ↦ out.1.isNone) = true ↔
        ∃ i, s.column.rows[i]? = some "mail" ∧ s.column.owner i = none ∧
          s.column.visible 2 i = false) := by
  have hrun : (replay (next Job.channelName) idle mailRace).map
      (fun r ↦ r.2.column.isOpen 2) = some true := by decide +kernel
  obtain ⟨⟨past, s⟩, hs, ht⟩ := Option.map_eq_some_iff.mp hrun
  have hrun : LookupRun Job.channelName past s := .of_replay id rfl hs
  exact ⟨past, s, hrun, ht, (getOrCreateLookup_eq_uncached hrun ht "mail").2⟩

end LookupSystem

end JobWorker
