import JobWorker.Base.Table

/-!
# A unique column under snapshot isolation

Open transactions insert rows into a table with a unique column. A transaction reads the rows
that were committed when it began, and its own. The index holds every row: an insertion waits
for another open transaction that has inserted the value, and fails when the value is there.
-/

namespace Relational

/-- The rows, committed or not, the open transactions that have inserted some of them, and the
ids that the snapshot of every open transaction shows. -/
structure UniqueColumn (V : Type) where
  rows : Table Nat V
  nextId : Nat
  owner : Nat → Option Nat
  snapshot : Nat → Option (Nat → Bool)
  lt_nextId : ∀ (i : Nat) (v : V), rows[i]? = some v → i < nextId
  unique : ∀ (i j : Nat) (v : V), rows[i]? = some v → rows[j]? = some v → i = j
  open_of_owner : ∀ (i t : Nat), owner i = some t → (snapshot t).isSome = true
  committed_of_shown : ∀ (t : Nat) (shows : Nat → Bool) (i : Nat), snapshot t = some shows →
    shows i = true → owner i = none ∧ ∃ v : V, rows[i]? = some v

namespace UniqueColumn

variable {V : Type}

private theorem not_mem_empty {i : Nat} {v : V} (h : (∅ : Table Nat V)[i]? = some v) : False := by
  rw [Std.ExtTreeMap.getElem?_empty] at h
  cases h

/-- The empty table. -/
def empty : UniqueColumn V where
  rows := ∅
  nextId := 1
  owner _ := none
  snapshot _ := none
  lt_nextId _ _ h := (not_mem_empty h).elim
  unique _ _ _ h := (not_mem_empty h).elim
  open_of_owner _ _ h := (Option.some_ne_none _ h.symm).elim
  committed_of_shown _ _ _ h := (Option.some_ne_none _ h.symm).elim

variable (c : UniqueColumn V) (t u : Nat)

/-- Transaction `t` is open. -/
def isOpen : Bool := (c.snapshot t).isSome

/-- Transaction `t` reads the row. -/
def visible (i : Nat) : Bool := c.owner i == some t || (c.snapshot t).any fun shows ↦ shows i

/-- The row is committed. -/
def committed (i : Nat) : Bool := c.rows[i]?.isSome && (c.owner i).isNone

/-! ### Transactions -/

/-- The owners of the rows when `t` has ended. -/
def ownerWithout (i : Nat) : Option Nat := if c.owner i = some t then none else c.owner i

/-- The snapshots when `t` has ended. -/
def snapshotWithout (u : Nat) : Option (Nat → Bool) := if u = t then none else c.snapshot u

/-- The owner of a row is another transaction. -/
theorem ownerWithout_eq_some {i : Nat} :
    c.ownerWithout t i = some u ↔ c.owner i = some u ∧ u ≠ t := by
  unfold ownerWithout
  split
  · next h =>
    rw [h, Option.some.injEq]
    constructor
    · exact fun h ↦ by cases h
    · rintro ⟨rfl, hne⟩
      exact absurd rfl hne
  · next h =>
    constructor
    · exact fun hu ↦ ⟨hu, fun heq ↦ h (heq ▸ hu)⟩
    · exact And.left

/-- A committed row stays committed. -/
theorem ownerWithout_of_none {i : Nat} (h : c.owner i = none) : c.ownerWithout t i = none := by
  rw [ownerWithout, h, if_neg fun h ↦ by cases h]

/-- A snapshot is that of another transaction. -/
theorem snapshotWithout_eq_some {shows : Nat → Bool} :
    c.snapshotWithout t u = some shows ↔ u ≠ t ∧ c.snapshot u = some shows := by
  unfold snapshotWithout
  split
  · next h => simp [h]
  · next h => simp [h]

private theorem open_without {i : Nat} (h : c.ownerWithout t i = some u) :
    (c.snapshotWithout t u).isSome = true := by
  obtain ⟨hu, hne⟩ := (c.ownerWithout_eq_some t u).mp h
  rw [snapshotWithout, if_neg hne]
  exact c.open_of_owner i u hu

private theorem committed_without {shows : Nat → Bool} {i : Nat}
    (h : c.snapshotWithout t u = some shows) (hi : shows i = true) :
    c.ownerWithout t i = none ∧ ∃ v, c.rows[i]? = some v := by
  obtain ⟨hnone, hrow⟩ := c.committed_of_shown u shows i
    ((c.snapshotWithout_eq_some t u).mp h).2 hi
  exact ⟨c.ownerWithout_of_none t hnone, hrow⟩

/-- The snapshots when `t` begins. -/
def snapshotWith (u : Nat) : Option (Nat → Bool) := if u = t then some c.committed else c.snapshot u

private theorem open_with {i : Nat} (h : c.owner i = some u) :
    (c.snapshotWith t u).isSome = true := by
  unfold snapshotWith
  split
  · rfl
  · exact c.open_of_owner i u h

private theorem committed_with {shows : Nat → Bool} {i : Nat}
    (h : c.snapshotWith t u = some shows) (hi : shows i = true) :
    c.owner i = none ∧ ∃ v, c.rows[i]? = some v := by
  unfold snapshotWith at h
  split at h
  · cases h
    rw [committed, Bool.and_eq_true, Option.isNone_iff_eq_none, Option.isSome_iff_exists] at hi
    exact ⟨hi.2, hi.1⟩
  · exact c.committed_of_shown u shows i h hi

/-- `BEGIN ISOLATION LEVEL REPEATABLE READ`. -/
def begin : UniqueColumn V where
  rows := c.rows
  nextId := c.nextId
  owner := c.owner
  snapshot := c.snapshotWith t
  lt_nextId := c.lt_nextId
  unique := c.unique
  open_of_owner _ u := c.open_with t u
  committed_of_shown u _ _ := c.committed_with t u

/-- `COMMIT`. -/
def commit : UniqueColumn V where
  rows := c.rows
  nextId := c.nextId
  owner := c.ownerWithout t
  snapshot := c.snapshotWithout t
  lt_nextId := c.lt_nextId
  unique := c.unique
  open_of_owner _ u := c.open_without t u
  committed_of_shown u _ _ := c.committed_without t u

/-- The rows without those of `t`. -/
def rowsWithout : Table Nat V := c.rows.deleteWhere fun i _ ↦ c.owner i == some t

/-- A row of another transaction, or a committed one. -/
theorem getElem?_rowsWithout {i : Nat} {v : V} :
    (c.rowsWithout t)[i]? = some v ↔ c.rows[i]? = some v ∧ c.owner i ≠ some t := by
  rw [rowsWithout, Table.getElem?_deleteWhere, Option.filter_eq_some_iff, Bool.not_eq_true',
    beq_eq_false_iff_ne]

private theorem committed_rollback {shows : Nat → Bool} {i : Nat}
    (h : c.snapshotWithout t u = some shows) (hi : shows i = true) :
    c.ownerWithout t i = none ∧ ∃ v, (c.rowsWithout t)[i]? = some v := by
  obtain ⟨hnone, v, hv⟩ := c.committed_of_shown u shows i
    ((c.snapshotWithout_eq_some t u).mp h).2 hi
  refine ⟨c.ownerWithout_of_none t hnone, v, (c.getElem?_rowsWithout t).mpr ⟨hv, ?_⟩⟩
  rw [hnone]
  exact fun h ↦ by cases h

/-- `ROLLBACK`. -/
def rollback : UniqueColumn V where
  rows := c.rowsWithout t
  nextId := c.nextId
  owner := c.ownerWithout t
  snapshot := c.snapshotWithout t
  lt_nextId i v h := c.lt_nextId i v ((c.getElem?_rowsWithout t).mp h).1
  unique i j v hi hj :=
    c.unique i j v ((c.getElem?_rowsWithout t).mp hi).1 ((c.getElem?_rowsWithout t).mp hj).1
  open_of_owner _ u := c.open_without t u
  committed_of_shown u _ _ := c.committed_rollback t u

/-! ### What other transactions read -/

section Reads

variable {c : UniqueColumn V} {t u i : Nat} {v : V}

/-- The end of another transaction does not change what `t` reads. -/
theorem visible_ended {c' : UniqueColumn V} (ho : c'.owner = c.ownerWithout u)
    (hs : c'.snapshot = c.snapshotWithout u) (h : t ≠ u) (i : Nat) :
    c'.visible t i = c.visible t i := by
  have hsnap : c.snapshotWithout u t = c.snapshot t := if_neg h
  have howner : (c.ownerWithout u i == some t) = (c.owner i == some t) := by
    rw [Bool.eq_iff_iff, beq_iff_eq, beq_iff_eq, ownerWithout_eq_some]
    exact and_iff_left_of_imp fun _ ↦ h
  rw [visible, visible, ho, hs, hsnap, howner]

/-- Another transaction's begin does not change what `t` reads. -/
theorem visible_begin (h : t ≠ u) (i : Nat) : (c.begin u).visible t i = c.visible t i := by
  have hsnap : (c.begin u).snapshot t = c.snapshot t := if_neg h
  rw [visible, visible, hsnap]
  rfl

/-- A row that is read is committed, or one of `t`. -/
theorem committed_or_own (h : c.visible t i = true) : c.owner i = none ∨ c.owner i = some t := by
  rw [visible, Bool.or_eq_true, beq_iff_eq, Option.any_eq_true] at h
  rcases h with h | ⟨shows, hs, hi⟩
  · exact .inr h
  · exact .inl (c.committed_of_shown t shows i hs hi).1

end Reads

/-! ### New rows -/

section New

variable {c : UniqueColumn V} {t i : Nat} {v : V}

/-- The rows with a new one. -/
theorem getElem?_insertNew {j : Nat} {a : V} :
    (c.rows.insert c.nextId v)[j]? = some a ↔
      c.nextId = j ∧ v = a ∨ c.nextId ≠ j ∧ c.rows[j]? = some a := by
  rw [Table.getElem?_insert]
  split
  · next h => simp [h]
  · next h => simp [h]

private theorem lt_insertNew {j : Nat} {a : V}
    (h : (c.rows.insert c.nextId v)[j]? = some a) : j < c.nextId + 1 := by
  rcases getElem?_insertNew.mp h with ⟨rfl, _⟩ | ⟨_, h⟩
  · exact Nat.lt_succ_self _
  · exact Nat.lt_succ_of_lt (c.lt_nextId j a h)

/-- The owners with a new row of `t`. -/
def ownerNew (c : UniqueColumn V) (t : Nat) (i : Nat) : Option Nat :=
  if i = c.nextId then some t else c.owner i

private theorem open_insertNew (ht : c.isOpen t = true) {i u : Nat}
    (h : c.ownerNew t i = some u) : (c.snapshot u).isSome = true := by
  unfold ownerNew at h
  split at h
  · cases h
    exact ht
  · exact c.open_of_owner i u h

private theorem committed_insertNew {u i : Nat} {shows : Nat → Bool}
    (h : c.snapshot u = some shows) (hi : shows i = true) :
    c.ownerNew t i = none ∧ ∃ a, (c.rows.insert c.nextId v)[i]? = some a := by
  obtain ⟨hnone, a, ha⟩ := c.committed_of_shown u shows i h hi
  have hne : i ≠ c.nextId := fun heq ↦ absurd (c.lt_nextId i a ha) (heq ▸ Nat.lt_irrefl _)
  exact ⟨by rw [ownerNew, if_neg hne, hnone], a, getElem?_insertNew.mpr (.inr ⟨hne.symm, ha⟩)⟩

end New

/-! ### Statements -/

variable [DecidableEq V] (v : V)

/-- `SELECT id WHERE value = v LIMIT 1`. -/
def find : Option Nat := (c.rows.select fun i a ↦ decide (a = v) && c.visible t i).head?

/-- The row that holds `v` in the index. -/
def holder : Option Nat := (c.rows.select fun _ a ↦ decide (a = v)).head?

variable {c t u v} {i : Nat}

/-- What is found is there and is read. -/
theorem find_eq_some (h : c.find t v = some i) : c.rows[i]? = some v ∧ c.visible t i = true := by
  obtain ⟨a, ha, hp⟩ := Table.mem_select.mp (List.mem_of_head? h)
  rw [Bool.and_eq_true, decide_eq_true_eq] at hp
  exact ⟨hp.1 ▸ ha, hp.2⟩

/-- What is read is found. -/
theorem find_of_visible (hv : c.rows[i]? = some v) (hi : c.visible t i = true) :
    c.find t v = some i := by
  cases hf : c.find t v with
  | some j => rw [c.unique i j v hv (find_eq_some hf).1]
  | none =>
    have hmem : i ∈ c.rows.select fun i a ↦ decide (a = v) && c.visible t i :=
      Table.mem_select.mpr ⟨v, hv, by rw [hi, decide_eq_true rfl, Bool.and_self]⟩
    rw [List.head?_eq_none_iff.mp hf] at hmem
    cases hmem

/-- The index holds what is in the table. -/
theorem holder_eq_some_iff : c.holder v = some i ↔ c.rows[i]? = some v := by
  have hmem {j : Nat} : j ∈ (c.rows.select fun _ a ↦ decide (a = v)) ↔ c.rows[j]? = some v := by
    rw [Table.mem_select]
    constructor
    · rintro ⟨a, ha, hp⟩
      exact of_decide_eq_true hp ▸ ha
    · exact fun h ↦ ⟨v, h, decide_eq_true rfl⟩
  constructor
  · exact fun h ↦ hmem.mp (List.mem_of_head? h)
  · intro hv
    cases hf : c.holder v with
    | some j => rw [c.unique i j v hv (hmem.mp (List.mem_of_head? hf))]
    | none =>
      have hi := hmem.mpr hv
      rw [List.head?_eq_none_iff.mp hf] at hi
      cases hi

/-- A value that the index does not hold is nowhere. -/
theorem holder_eq_none_iff : c.holder v = none ↔ ∀ i : Nat, c.rows[i]? ≠ some v := by
  constructor
  · intro h i hi
    rw [holder_eq_some_iff.mpr hi] at h
    cases h
  · intro h
    cases hf : c.holder v with
    | none => rfl
    | some i => exact absurd (holder_eq_some_iff.mp hf) (h i)

private theorem unique_insertNew (hv : c.holder v = none) {i j : Nat} {a : V}
    (hi : (c.rows.insert c.nextId v)[i]? = some a)
    (hj : (c.rows.insert c.nextId v)[j]? = some a) : i = j := by
  rcases getElem?_insertNew.mp hi with ⟨rfl, rfl⟩ | ⟨_, hi⟩
  · rcases getElem?_insertNew.mp hj with ⟨rfl, _⟩ | ⟨_, hj⟩
    · rfl
    · exact absurd hj (holder_eq_none_iff.mp hv j)
  · rcases getElem?_insertNew.mp hj with ⟨_, rfl⟩ | ⟨_, hj⟩
    · exact absurd hi (holder_eq_none_iff.mp hv i)
    · exact c.unique i j a hi hj

/-- The table with a new row of `t`. -/
def insertNew (c : UniqueColumn V) (t : Nat) (v : V) (ht : c.isOpen t = true)
    (hv : c.holder v = none) : UniqueColumn V where
  rows := c.rows.insert c.nextId v
  nextId := c.nextId + 1
  owner := c.ownerNew t
  snapshot := c.snapshot
  lt_nextId _ _ := lt_insertNew
  unique _ _ _ := unique_insertNew hv
  open_of_owner _ _ := open_insertNew ht
  committed_of_shown _ _ _ := committed_insertNew

/-- The outcome of an insertion. -/
inductive Insertion (V : Type)
  | waits
  | duplicate
  | inserted (id : Nat) (column : UniqueColumn V)

/-- `INSERT … VALUES (v)` by the open transaction `t`. -/
def insert (c : UniqueColumn V) (t : Nat) (ht : c.isOpen t = true) (v : V) : Insertion V :=
  match hv : c.holder v with
  | some i => if (c.owner i).any (· != t) then .waits else .duplicate
  | none => .inserted c.nextId (c.insertNew t v ht hv)

/-- An insertion is read by its transaction only. -/
theorem visible_insertNew {ht : c.isOpen u = true} {hv : c.holder v = none} (h : i ≠ c.nextId) :
    (c.insertNew u v ht hv).visible t i = c.visible t i := by
  have howner : (c.insertNew u v ht hv).owner i = c.owner i := if_neg h
  rw [visible, visible, howner]
  rfl

/-- A new row is read by its transaction. -/
theorem visible_nextId {ht : c.isOpen t = true} {hv : c.holder v = none} :
    (c.insertNew t v ht hv).visible t c.nextId = true := by
  have howner : (c.insertNew t v ht hv).owner c.nextId = some t := if_pos rfl
  rw [visible, howner, beq_self_eq_true, Bool.true_or]

/-- An insertion that goes through inserts a new value. -/
theorem insert_eq_inserted {ht : c.isOpen t = true} {c' : UniqueColumn V}
    (h : c.insert t ht v = .inserted i c') :
    ∃ hv : c.holder v = none, i = c.nextId ∧ c' = c.insertNew t v ht hv := by
  unfold insert at h
  split at h
  · split at h <;> cases h
  · next hv =>
    cases h
    exact ⟨hv, rfl, rfl⟩

/-- An insertion fails behind a committed row, or one of the transaction. -/
theorem insert_eq_duplicate {ht : c.isOpen t = true} (h : c.insert t ht v = .duplicate) :
    ∃ i : Nat, c.rows[i]? = some v ∧ (c.owner i = none ∨ c.owner i = some t) := by
  unfold insert at h
  split at h
  · next i hi =>
    refine ⟨i, holder_eq_some_iff.mp hi, ?_⟩
    split at h
    · cases h
    · next hn =>
      cases ho : c.owner i with
      | none => exact .inl rfl
      | some u =>
        rw [ho, Option.any_some, bne_iff_ne, not_not] at hn
        exact .inr (congrArg some hn)
  · cases h

/-- An insertion behind a committed row fails. -/
theorem insert_of_committed {ht : c.isOpen t = true} (hi : c.rows[i]? = some v)
    (hnone : c.owner i = none) : c.insert t ht v = .duplicate := by
  unfold insert
  split
  · next j hj =>
    obtain rfl := c.unique i j v hi (holder_eq_some_iff.mp hj)
    rw [hnone, Option.any_none, if_neg Bool.false_ne_true]
  · next hn => exact absurd hi (holder_eq_none_iff.mp hn i)

end UniqueColumn
end Relational
