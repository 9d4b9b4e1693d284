import Mathlib.Data.List.Sort
import Std.Data.ExtTreeMap

/-!
# Tables and the SQL statements over them

A table is a finite map from primary keys to rows. `updateWhere` is a single-statement
`UPDATE`, `select` a `SELECT` of keys, `count` an aggregate. Each statement is known by
one lookup or membership law, so callers never unfold the underlying map.
-/

namespace Relational

/-- A table: finitely many rows, at most one for each primary key. -/
abbrev Table (K V : Type) [Ord K] := Std.ExtTreeMap K V

namespace Table

variable {K V : Type} [Ord K] [Std.TransOrd K]

/-- `UPDATE … SET f WHERE p`: every row is tested and rewritten independently. -/
def updateWhere (t : Table K V) (p : K → V → Bool) (f : K → V → V) : Table K V :=
  t.map fun k v ↦ if p k v then f k v else v

/-- `DELETE … WHERE p`. -/
def deleteWhere (t : Table K V) (p : K → V → Bool) : Table K V := t.filter fun k v ↦ !p k v

/-- `SELECT key … WHERE p`, in primary-key order. -/
def select (t : Table K V) (p : K → V → Bool) : List K :=
  (t.toList.filter fun e ↦ p e.1 e.2).map Prod.fst

/-- `SELECT COUNT(*) … WHERE p`. -/
def count (t : Table K V) (p : K → V → Bool) : Nat := (t.select p).length

/-- `SELECT key … WHERE p ORDER BY le`. -/
def selectBy (t : Table K V) (p : K → V → Bool) (le : K × V → K × V → Prop)
    [DecidableRel le] : List K :=
  ((t.toList.filter fun e ↦ p e.1 e.2).insertionSort le).map Prod.fst

section Lookup

variable [Std.LawfulEqOrd K]

/-- A row after an `UPDATE` is the old row, rewritten exactly when it matched. -/
theorem getElem?_updateWhere (t : Table K V) (p : K → V → Bool) (f : K → V → V) (k : K) :
    (t.updateWhere p f)[k]? = t[k]?.map fun v ↦ if p k v then f k v else v := by
  simp only [updateWhere, Std.ExtTreeMap.getElem?_map]

/-- A row after a `DELETE` is an old row that did not match. -/
theorem getElem?_deleteWhere (t : Table K V) (p : K → V → Bool) (k : K) :
    (t.deleteWhere p)[k]? = t[k]?.filter fun v ↦ !p k v :=
  Std.ExtTreeMap.getElem?_filter'

/-- An insertion is seen at its own key only. -/
theorem getElem?_insert [DecidableEq K] (t : Table K V) (k a : K) (v : V) :
    (Std.ExtTreeMap.insert t k v)[a]? = if k = a then some v else t[a]? := by
  rw [Std.ExtTreeMap.getElem?_insert]
  simp only [Std.LawfulEqCmp.compare_eq_iff_eq]

/-- Selection returns exactly the keys whose row matches. -/
theorem mem_select {t : Table K V} {p : K → V → Bool} {k : K} :
    k ∈ t.select p ↔ ∃ v, t[k]? = some v ∧ p k v = true := by
  simp only [select, List.mem_map, List.mem_filter, Prod.exists]
  constructor
  · rintro ⟨a, v, ⟨hm, hp⟩, rfl⟩
    exact ⟨v, Std.ExtTreeMap.mem_toList_iff_getElem?_eq_some.mp hm, hp⟩
  · rintro ⟨v, hv, hp⟩
    exact ⟨k, v, ⟨Std.ExtTreeMap.mem_toList_iff_getElem?_eq_some.mpr hv, hp⟩, rfl⟩

/-- Ordered selection returns the same keys as the unordered one. -/
theorem mem_selectBy {t : Table K V} {p : K → V → Bool} {le : K × V → K × V → Prop}
    [DecidableRel le] {k : K} :
    k ∈ t.selectBy p le ↔ ∃ v, t[k]? = some v ∧ p k v = true := by
  rw [← mem_select]
  exact ((List.perm_insertionSort le _).map Prod.fst).mem_iff

/-- Selection lists no key twice. -/
theorem nodup_select (t : Table K V) (p : K → V → Bool) : (t.select p).Nodup := by
  unfold select List.Nodup
  rw [List.pairwise_map]
  apply List.Pairwise.filter
  exact Std.ExtTreeMap.distinct_keys_toList.imp fun {a b} hab he ↦
    hab (by rw [he]; exact Std.ReflCmp.compare_self)

/-- A count is bounded by the length of a list that names every row it counts. -/
theorem count_le_length {t : Table K V} {p : K → V → Bool} {keys : List K}
    (h : ∀ k v, t[k]? = some v → p k v = true → k ∈ keys) : t.count p ≤ keys.length := by
  apply (List.subperm_of_subset (nodup_select t p) ?_).length_le
  intro k hk
  obtain ⟨v, hv, hp⟩ := mem_select.mp hk
  exact h k v hv hp

/-- A list of different keys whose rows are counted is no longer than the count. -/
theorem length_le_count {t : Table K V} {p : K → V → Bool} {keys : List K}
    (hn : keys.Nodup) (h : ∀ k ∈ keys, ∃ v, t[k]? = some v ∧ p k v = true) :
    keys.length ≤ t.count p :=
  (List.subperm_of_subset hn fun k hk ↦ mem_select.mpr (h k hk)).length_le

end Lookup

/-- Ordered selection lists as many keys as are counted. -/
theorem length_selectBy (t : Table K V) (p : K → V → Bool) (le : K × V → K × V → Prop)
    [DecidableRel le] : (t.selectBy p le).length = t.count p := by
  simp only [selectBy, count, select, List.length_map, List.length_insertionSort]

/-- Rows that a statement matches and takes out of `q` leave the count of `q` one by one. -/
theorem count_updateWhere_add (t : Table K V) (p q : K → V → Bool) (f : K → V → V)
    (hpq : ∀ k v, p k v = true → q k v = true)
    (hf : ∀ k v, p k v = true → q k (f k v) = false) :
    (t.updateWhere p f).count q + t.count p = t.count q := by
  simp only [count, select, updateWhere, Std.ExtTreeMap.toList_map, List.length_map]
  induction t.toList with
  | nil => rfl
  | cons e rest ih =>
    have hq := hpq e.1 e.2
    have hn := hf e.1 e.2
    simp only [List.map_cons, List.filter_cons]
    cases hp : p e.1 e.2 with
    | true =>
      simp only [hq hp, hn hp, if_true, Bool.false_eq_true, if_false, List.length_cons]
      omega
    | false =>
      simp only [Bool.false_eq_true, if_false]
      cases q e.1 e.2 with
      | true => simp only [if_true, List.length_cons]; omega
      | false => simp only [Bool.false_eq_true, if_false]; omega

/-- Rows that a statement takes into `q` raise the count of `q` one by one. -/
theorem count_updateWhere_of_keeps (t : Table K V) (p q : K → V → Bool) (f : K → V → V)
    (hf : ∀ k v, p k v = true → q k v = true → q k (f k v) = true) :
    (t.updateWhere p f).count q =
      t.count q + t.count fun k v ↦ p k v && !q k v && q k (f k v) := by
  simp only [count, select, updateWhere, Std.ExtTreeMap.toList_map, List.length_map]
  induction t.toList with
  | nil => rfl
  | cons e rest ih =>
    have hq := hf e.1 e.2
    simp only [List.map_cons, List.filter_cons]
    cases hp : p e.1 e.2 with
    | false =>
      simp only [Bool.false_and, Bool.false_eq_true, if_false]
      cases q e.1 e.2 with
      | true => simp only [if_true, List.length_cons]; omega
      | false => simp only [Bool.false_eq_true, if_false]; exact ih
    | true =>
      simp only [Bool.true_and, if_true]
      cases hold : q e.1 e.2 with
      | true =>
        simp only [hq hp hold, Bool.not_true, Bool.false_and, Bool.false_eq_true, if_true,
          if_false, List.length_cons]
        omega
      | false =>
        cases q e.1 (f e.1 e.2) with
        | true =>
          simp only [Bool.not_false, Bool.and_self, if_true, Bool.false_eq_true, if_false,
            List.length_cons]
          omega
        | false => simp only [Bool.and_false, Bool.false_eq_true, if_false]; exact ih

/-- A statement that leaves the rows it matches on their side of `q` keeps the count. -/
theorem count_updateWhere_congr (t : Table K V) (p q : K → V → Bool) (f : K → V → V)
    (hf : ∀ k v, p k v = true → q k (f k v) = q k v) : (t.updateWhere p f).count q = t.count q := by
  simp only [count, select, updateWhere, Std.ExtTreeMap.toList_map, List.length_map,
    List.filter_map]
  congr 1
  apply List.filter_congr
  intro e _
  show q e.1 (if p e.1 e.2 then f e.1 e.2 else e.2) = q e.1 e.2
  split
  · next hp => exact hf e.1 e.2 hp
  · rfl

/-- A narrower condition counts no more rows. -/
theorem count_le_count (t : Table K V) (p q : K → V → Bool)
    (hpq : ∀ k v, p k v = true → q k v = true) : t.count p ≤ t.count q := by
  simp only [count, select, List.length_map]
  apply List.Sublist.length_le
  apply List.monotone_filter_right
  intro e he
  exact hpq e.1 e.2 he

end Table
end Relational
