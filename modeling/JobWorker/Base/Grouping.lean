import Mathlib.Algebra.BigOperators.Group.Finset.Piecewise
import Mathlib.Algebra.BigOperators.Ring.Finset

/-!
# Groups of rows and dicts of groups

A query with `GROUP BY` returns its groups in an order of its own. A dict that is filled from
rows keeps the last value of each key, so that what a column sums to over the dict is what it
sums to over the rows, less the rows that others overwrite.
-/

namespace Relational

section Groups

variable {ρ κ : Type} [DecidableEq κ]

/-- An order in which `GROUP BY key` may return the groups of `rows`. -/
structure GroupOrder (key : ρ → κ) (rows : List ρ) (order : List κ) : Prop where
  nodup : order.Nodup
  mem_iff : ∀ k, k ∈ order ↔ ∃ r ∈ rows, key r = k

/-- The rows of one group. -/
def group (key : ρ → κ) (rows : List ρ) (k : κ) : List ρ :=
  rows.filter fun r ↦ decide (key r = k)

theorem group_flatMap {σ : Type} {key : ρ → κ} {k : κ} (l : List σ) (f : σ → List ρ) :
    group key (l.flatMap f) k = l.flatMap fun a ↦ group key (f a) k :=
  List.filter_flatMap

/-- The groups together are the rows. -/
theorem flatMap_group_perm {key : ρ → κ} {keys : List κ} (hkeys : keys.Nodup) {rows : List ρ}
    (hmem : ∀ r ∈ rows, key r ∈ keys) : (keys.flatMap (group key rows)).Perm rows := by
  induction keys generalizing rows with
  | nil =>
    have hnil : rows = [] := List.eq_nil_iff_forall_not_mem.mpr fun r hr ↦ nomatch hmem r hr
    rw [hnil]
    exact .refl _
  | cons k keys ih =>
    obtain ⟨hk, hkeys⟩ := List.nodup_cons.mp hkeys
    let rest := rows.filter fun r ↦ !decide (key r = k)
    have hrest : ∀ r ∈ rest, key r ∈ keys := by
      intro r hr
      obtain ⟨hr, hne⟩ := List.mem_filter.mp hr
      exact (List.mem_cons.mp (hmem r hr)).resolve_left (by simpa using hne)
    have hgroup : ∀ k' ∈ keys, group key rows k' = group key rest k' := by
      intro k' hk'
      rw [group, group, List.filter_filter]
      apply List.filter_congr
      intro r _
      by_cases h : key r = k'
      · have hne : k' ≠ k := fun heq ↦ hk (heq ▸ hk')
        simp [h, hne]
      · simp [h]
    rw [List.flatMap_cons, List.flatMap_congr hgroup]
    exact ((ih hkeys hrest).append_left _).trans (List.filter_append_perm _ rows)

/-- A count over all rows is the sum of the counts of the groups. -/
theorem sum_countP_group {key : ρ → κ} {order : List κ} (horder : order.Nodup) (p : ρ → Bool)
    {rows : List ρ} (hmem : ∀ r ∈ rows, key r ∈ order) :
    (order.map fun k ↦ (group key rows k).countP p).sum = rows.countP p := by
  rw [← (flatMap_group_perm horder hmem).countP_eq, List.countP_flatMap]
  rfl

end Groups

section Dict

variable {κ ν : Type} [DecidableEq κ]

/-- The value of a key in the dict of `rows`, if any. -/
def dictGet : List (κ × ν) → κ → Option ν
  | [], _ => none
  | r :: rows, k => (dictGet rows k).or (if r.1 = k then some r.2 else none)

/-- The keys of the dict of `rows`. -/
def dictKeys (rows : List (κ × ν)) : List κ := (rows.map Prod.fst).dedup

/-- The rows that a later one overwrites. -/
def overwritten : List (κ × ν) → List (κ × ν)
  | [] => []
  | r :: rows => if r.1 ∈ dictKeys rows then r :: overwritten rows else overwritten rows

variable {r : κ × ν} {rows : List (κ × ν)} {k : κ}

theorem mem_dictKeys : k ∈ dictKeys rows ↔ ∃ r ∈ rows, r.1 = k := by
  simp only [dictKeys, List.mem_dedup, List.mem_map]

theorem nodup_dictKeys (rows : List (κ × ν)) : (dictKeys rows).Nodup := List.nodup_dedup _

/-- A dict has a value for its keys only. -/
theorem dictGet_eq_none : dictGet rows k = none ↔ k ∉ dictKeys rows := by
  induction rows with
  | nil => simp [dictGet, dictKeys]
  | cons r rows ih =>
    rw [mem_dictKeys] at ih ⊢
    by_cases hk : r.1 = k
    · simp [dictGet, hk]
    · simp [dictGet, hk, ih]

/-- A row in front changes no key that the rows behind it have. -/
theorem dictGet_cons_of_mem (h : k ∈ dictKeys rows) : dictGet (r :: rows) k = dictGet rows k := by
  cases hk : dictGet rows k with
  | none => exact absurd h (dictGet_eq_none.mp hk)
  | some v => simp [dictGet, hk]

theorem dictKeys_cons :
    dictKeys (r :: rows) = if r.1 ∈ dictKeys rows then dictKeys rows else r.1 :: dictKeys rows := by
  simp only [dictKeys, List.map_cons, List.mem_dedup]
  split
  · exact List.dedup_cons_of_mem ‹_›
  · exact List.dedup_cons_of_notMem ‹_›

/-- A row is overwritten if one of the same key comes behind it. -/
theorem mem_overwritten : r ∈ overwritten rows ↔ ∃ q, q.1 = r.1 ∧ [r, q].Sublist rows := by
  induction rows with
  | nil => simp [overwritten]
  | cons p rows ih =>
    have hcons (q : κ × ν) :
        [r, q].Sublist (p :: rows) ↔ r = p ∧ q ∈ rows ∨ [r, q].Sublist rows := by
      rw [List.sublist_cons_iff, or_comm]
      simp
    simp only [hcons, and_or_left, exists_or, ← ih, overwritten, mem_dictKeys]
    by_cases hp : ∃ q ∈ rows, q.1 = p.1
    · rw [if_pos hp, List.mem_cons]
      apply or_congr_left
      constructor
      · rintro rfl
        obtain ⟨q, hq, hkey⟩ := hp
        exact ⟨q, hkey, rfl, hq⟩
      · rintro ⟨q, _, rfl, _⟩
        rfl
    · rw [if_neg hp]
      apply (or_iff_right _).symm
      rintro ⟨q, hkey, rfl, hq⟩
      exact hp ⟨q, hq, hkey⟩

/-- What a column sums to over the dict is missing the overwritten rows. -/
theorem sum_dict (f : ν → Nat) (rows : List (κ × ν)) :
    ((dictKeys rows).map fun k ↦ (dictGet rows k).elim 0 f).sum +
      ((overwritten rows).map fun r ↦ f r.2).sum = (rows.map fun r ↦ f r.2).sum := by
  induction rows with
  | nil => rfl
  | cons r rows ih =>
    have hrest : (dictKeys rows).map (fun k ↦ (dictGet (r :: rows) k).elim 0 f) =
        (dictKeys rows).map fun k ↦ (dictGet rows k).elim 0 f :=
      List.map_congr_left fun k hk ↦ by rw [dictGet_cons_of_mem hk]
    rw [dictKeys_cons, overwritten, List.map_cons, List.sum_cons, ← ih]
    split
    · rw [hrest, List.map_cons, List.sum_cons]
      omega
    · have hnew : dictGet (r :: rows) r.1 = some r.2 := by
        simp [dictGet, dictGet_eq_none.mpr ‹_›]
      rw [List.map_cons, List.sum_cons, hrest, hnew]
      exact Nat.add_assoc _ _ _

/-- A column sums to the same over any list of keys with those of the dict in it. -/
theorem sum_keys (f : ν → Nat) {keys : List κ} (hkeys : keys.Nodup)
    (hsub : dictKeys rows ⊆ keys) :
    (keys.map fun k ↦ (dictGet rows k).elim 0 f).sum =
      ((dictKeys rows).map fun k ↦ (dictGet rows k).elim 0 f).sum := by
  rw [← List.sum_toFinset _ hkeys, ← List.sum_toFinset _ (nodup_dictKeys rows)]
  symm
  apply Finset.sum_subset
  · intro k hk
    exact List.mem_toFinset.mpr (hsub (List.mem_toFinset.mp hk))
  · intro k _ hk
    rw [dictGet_eq_none.mpr (mt List.mem_toFinset.mpr hk)]
    rfl

/-- A dict keeps the sum of a column exactly if the overwritten rows have nothing in it. -/
theorem sum_keys_eq_iff (f : ν → Nat) {keys : List κ} (hkeys : keys.Nodup)
    (hsub : dictKeys rows ⊆ keys) :
    (keys.map fun k ↦ (dictGet rows k).elim 0 f).sum = (rows.map fun r ↦ f r.2).sum ↔
      ∀ r ∈ overwritten rows, f r.2 = 0 := by
  have hsum := sum_dict f rows
  rw [sum_keys f hkeys hsub, ← hsum, Nat.left_eq_add, List.sum_eq_zero_iff_forall_eq_nat]
  simp only [List.mem_map, forall_exists_index, and_imp, forall_apply_eq_imp_iff₂]

end Dict

end Relational
