import Mathlib.Algebra.BigOperators.Group.List.Basic
import Mathlib.Algebra.Field.Rat
import Mathlib.Data.List.MinMax
import Mathlib.Tactic.FieldSimp

/-!
# Aggregates that can be aggregated again

The weighted mean and the greatest value of a column. Over the aggregates of the parts of a
list both are what they are over the list.
-/

namespace Relational

variable {ρ : Type}

section Mean

variable (w : ρ → Nat) (x : ρ → ℚ)

/-- The mean of `x` with the weights `w`, 0 if all of them are. -/
def weightedMean (rows : List ρ) : ℚ :=
  (rows.map fun r ↦ x r * w r).sum / ((rows.map w).sum : Nat)

/-- A mean with the whole weight is the weighted sum. -/
theorem weightedMean_mul (rows : List ρ) :
    weightedMean w x rows * ((rows.map w).sum : Nat) = (rows.map fun r ↦ x r * w r).sum := by
  by_cases h : (rows.map w).sum = 0
  · have hzero : ∀ r ∈ rows, w r = 0 := by
      simpa using List.sum_eq_zero_iff_forall_eq_nat.mp h
    have hsum : (rows.map fun r ↦ x r * (w r : ℚ)).sum = 0 := by
      apply List.sum_eq_zero
      intro q hq
      obtain ⟨r, hr, rfl⟩ := List.mem_map.mp hq
      simp [hzero r hr]
    simp [h, hsum]
  · exact div_mul_cancel₀ _ (Nat.cast_ne_zero.mpr h)

variable {w x} {rows rows' : List ρ}

/-- With the weights, a mean tells the weighted sum. -/
theorem weightedMean_eq_iff (h : (rows.map w).sum = (rows'.map w).sum) :
    weightedMean w x rows = weightedMean w x rows' ↔
      (rows.map fun r ↦ x r * (w r : ℚ)).sum = (rows'.map fun r ↦ x r * (w r : ℚ)).sum := by
  constructor
  · intro hmean
    rw [← weightedMean_mul, ← weightedMean_mul, hmean, h]
  · intro hsum
    rw [weightedMean, weightedMean, hsum, h]

end Mean

section Greatest

variable {α : Type} [LinearOrder α] (f : ρ → α)

/-- No row has more than all rows of the other list. -/
def DominatedBy (rows rows' : List ρ) : Prop := ∀ r ∈ rows, ∃ q ∈ rows', f r ≤ f q

/-- The greatest value of a column, 0 without rows. -/
def greatest [Zero α] (rows : List ρ) : α := (rows.map f).max?.getD 0

variable {f} {rows rows' : List ρ}

theorem DominatedBy.of_subset (h : rows ⊆ rows') : DominatedBy f rows rows' :=
  fun r hr ↦ ⟨r, h hr, le_rfl⟩

theorem DominatedBy.append {more more' : List ρ} (h : DominatedBy f rows rows')
    (hmore : DominatedBy f more more') : DominatedBy f (rows ++ more) (rows' ++ more') := by
  intro r hr
  rcases List.mem_append.mp hr with hr | hr
  · obtain ⟨q, hq, hle⟩ := h r hr
    exact ⟨q, List.mem_append_left _ hq, hle⟩
  · obtain ⟨q, hq, hle⟩ := hmore r hr
    exact ⟨q, List.mem_append_right _ hq, hle⟩

theorem dominatedBy_append_left {more : List ρ} :
    DominatedBy f (rows ++ more) rows' ↔ DominatedBy f rows rows' ∧ DominatedBy f more rows' := by
  simp only [DominatedBy, List.mem_append, or_imp, forall_and]

variable [Zero α]

/-- The greatest value is that of a row, and no row has more. -/
theorem greatest_spec (h : rows ≠ []) :
    (∃ r ∈ rows, f r = greatest f rows) ∧ ∀ r ∈ rows, f r ≤ greatest f rows := by
  cases hmax : (rows.map f).max? with
  | none => exact absurd (List.map_eq_nil_iff.mp (List.max?_eq_none_iff.mp hmax)) h
  | some a =>
    obtain ⟨hmem, hle⟩ := List.max?_eq_some_iff.mp hmax
    rw [greatest, hmax, Option.getD_some]
    exact ⟨List.mem_map.mp hmem, fun r hr ↦ hle _ (List.mem_map_of_mem hr)⟩

/-- Two lists have one greatest value exactly if they dominate each other. -/
theorem greatest_eq_greatest_iff (h : rows ≠ []) (h' : rows' ≠ []) :
    greatest f rows = greatest f rows' ↔ DominatedBy f rows rows' ∧ DominatedBy f rows' rows := by
  obtain ⟨⟨a, ha, heq⟩, hle⟩ := greatest_spec (f := f) h
  obtain ⟨⟨a', ha', heq'⟩, hle'⟩ := greatest_spec (f := f) h'
  constructor
  · intro hgreatest
    constructor
    · exact fun r hr ↦ ⟨a', ha', (hle r hr).trans_eq (hgreatest.trans heq'.symm)⟩
    · exact fun q hq ↦ ⟨a, ha, (hle' q hq).trans_eq (hgreatest.symm.trans heq.symm)⟩
  · rintro ⟨hdom, hdom'⟩
    obtain ⟨q, hq, hq'⟩ := hdom a ha
    obtain ⟨r, hr, hr'⟩ := hdom' a' ha'
    apply le_antisymm
    · exact heq.symm.trans_le (hq'.trans (hle' q hq))
    · exact heq'.symm.trans_le (hr'.trans (hle r hr))

/-- A row with the greatest value stands for all rows. -/
theorem dominatedBy_singleton {r : ρ} (h : rows ≠ []) (hr : f r = greatest f rows) :
    DominatedBy f [r] rows ∧ DominatedBy f rows [r] := by
  apply (greatest_eq_greatest_iff (List.cons_ne_nil _ _) h).mp
  rw [← hr]
  rfl

end Greatest

end Relational
