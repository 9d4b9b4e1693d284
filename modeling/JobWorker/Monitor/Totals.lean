import JobWorker.Monitor.QueueJobMetric
import Mathlib.Tactic.Linarith

/-!
# Totals of metric rows

The direct aggregation of metric rows, and when two lists of rows have the same one.
-/

namespace JobWorker

open Relational QueueJobMetric

/-- Values that do not depend on how rows are aggregated. -/
structure MetricTotals where
  completed : Nat
  failed : Nat
  averageDuration : ℚ
  p95Duration : ℚ
  activeWorkers : Nat
  deriving DecidableEq

/-- The values of a row that totals are compared with. -/
def MetricValues.totals (v : MetricValues) : MetricTotals :=
  ⟨v.jobsCompleted, v.jobsFailed, v.averageDuration, v.p95Duration, v.activeWorkers⟩

/-- Sums, the completion-weighted mean, and maxima. -/
def totals (rows : List QueueJobMetric) : MetricTotals where
  completed := (rows.map fun m ↦ m.jobsCompleted).sum
  failed := (rows.map fun m ↦ m.jobsFailed).sum
  averageDuration := weightedMean (fun m ↦ m.jobsCompleted) (fun m ↦ m.averageDuration) rows
  p95Duration := greatest (fun m ↦ m.p95Duration) rows
  activeWorkers := greatest (fun m ↦ m.activeWorkers) rows

/-- The direct aggregation of rows, if there are any. -/
def directAggregate (rows : List QueueJobMetric) : Option MetricTotals :=
  if rows = [] then none else some (totals rows)

/-- The seconds that the completed jobs of a row took. -/
def MetricValues.totalDuration (v : MetricValues) : ℚ := v.averageDuration * (v.jobsCompleted : ℚ)

/-- What decides the totals of a list of rows. -/
structure SameTotals (rows rows' : List QueueJobMetric) : Prop where
  completed : (rows.map fun m ↦ m.jobsCompleted).sum = (rows'.map fun m ↦ m.jobsCompleted).sum
  failed : (rows.map fun m ↦ m.jobsFailed).sum = (rows'.map fun m ↦ m.jobsFailed).sum
  duration : (rows.map fun m ↦ m.totalDuration).sum = (rows'.map fun m ↦ m.totalDuration).sum
  p95Duration : DominatedBy (fun m ↦ m.p95Duration) rows rows' ∧
    DominatedBy (fun m ↦ m.p95Duration) rows' rows
  activeWorkers : DominatedBy (fun m ↦ m.activeWorkers) rows rows' ∧
    DominatedBy (fun m ↦ m.activeWorkers) rows' rows

section Totals

variable {rows rows' : List QueueJobMetric}

theorem rollupValues_averageDuration (rows : List QueueJobMetric) :
    (rollupValues rows).averageDuration =
      weightedMean (fun m ↦ m.jobsCompleted) (fun m ↦ m.averageDuration) rows := by
  simp only [rollupValues, weightedMean]
  split
  · rfl
  · have hzero : (rows.map fun m ↦ m.jobsCompleted).sum = 0 := by omega
    simp [hzero]

/-- A rollup computes the totals of a group. -/
theorem rollupValues_totals (rows : List QueueJobMetric) :
    (rollupValues rows).totals = totals rows := by
  rw [MetricValues.totals, rollupValues_averageDuration]
  rfl

/-- Totals are equal exactly if what decides them is. -/
theorem totals_eq_iff (h : rows ≠ []) (h' : rows' ≠ []) :
    totals rows = totals rows' ↔ SameTotals rows rows' := by
  simp only [totals, MetricTotals.mk.injEq]
  constructor
  · rintro ⟨hcompleted, hfailed, hmean, hp95, hworkers⟩
    exact ⟨hcompleted, hfailed, (weightedMean_eq_iff hcompleted).mp hmean,
      (greatest_eq_greatest_iff h h').mp hp95, (greatest_eq_greatest_iff h h').mp hworkers⟩
  · intro hsame
    exact ⟨hsame.completed, hsame.failed, (weightedMean_eq_iff hsame.completed).mpr hsame.duration,
      (greatest_eq_greatest_iff h h').mpr hsame.p95Duration,
      (greatest_eq_greatest_iff h h').mpr hsame.activeWorkers⟩

namespace SameTotals

theorem of_perm (h : rows.Perm rows') : SameTotals rows rows' where
  completed := (h.map _).sum_eq
  failed := (h.map _).sum_eq
  duration := (h.map _).sum_eq
  p95Duration := ⟨.of_subset h.subset, .of_subset h.symm.subset⟩
  activeWorkers := ⟨.of_subset h.subset, .of_subset h.symm.subset⟩

/-- Rows without any have the totals of no rows. -/
theorem nil_iff (h : SameTotals rows rows') : rows = [] ↔ rows' = [] := by
  constructor
  · rintro rfl
    refine List.eq_nil_iff_forall_not_mem.mpr fun m hm ↦ ?_
    obtain ⟨_, hm', _⟩ := h.p95Duration.2 m hm
    cases hm'
  · rintro rfl
    refine List.eq_nil_iff_forall_not_mem.mpr fun m hm ↦ ?_
    obtain ⟨_, hm', _⟩ := h.p95Duration.1 m hm
    cases hm'

theorem append {more more' : List QueueJobMetric} (h : SameTotals rows rows')
    (hmore : SameTotals more more') : SameTotals (rows ++ more) (rows' ++ more') where
  completed := by simp only [List.map_append, List.sum_append, h.completed, hmore.completed]
  failed := by simp only [List.map_append, List.sum_append, h.failed, hmore.failed]
  duration := by simp only [List.map_append, List.sum_append, h.duration, hmore.duration]
  p95Duration := ⟨h.p95Duration.1.append hmore.p95Duration.1,
    h.p95Duration.2.append hmore.p95Duration.2⟩
  activeWorkers := ⟨h.activeWorkers.1.append hmore.activeWorkers.1,
    h.activeWorkers.2.append hmore.activeWorkers.2⟩

/-- Parts with the same totals have the same totals together. -/
theorem flatMap {κ : Type} {keys : List κ} {f g : κ → List QueueJobMetric}
    (h : ∀ k ∈ keys, SameTotals (f k) (g k)) : SameTotals (keys.flatMap f) (keys.flatMap g) := by
  induction keys with
  | nil => exact .of_perm (.refl [])
  | cons k keys ih =>
    rw [List.flatMap_cons, List.flatMap_cons]
    exact (h k List.mem_cons_self).append (ih fun k hk ↦ h k (List.mem_cons_of_mem _ hk))

/-- A row with the values of a rollup stands for the rows of its group. -/
theorem singleton {m : QueueJobMetric} (h : rows ≠ [])
    (hm : m.toMetricValues = rollupValues rows) : SameTotals [m] rows where
  completed := by simp [hm, rollupValues]
  failed := by simp [hm, rollupValues]
  duration := by
    rw [List.map_singleton, List.sum_singleton, MetricValues.totalDuration, hm,
      rollupValues_averageDuration]
    exact weightedMean_mul _ _ rows
  p95Duration := dominatedBy_singleton h (by rw [hm]; rfl)
  activeWorkers := dominatedBy_singleton h (by rw [hm]; rfl)

end SameTotals

/-- Direct aggregates are equal exactly if what decides the totals is. -/
theorem directAggregate_eq_iff :
    directAggregate rows = directAggregate rows' ↔ SameTotals rows rows' := by
  by_cases hrows : rows = []
  · constructor
    · intro h
      have hrows' : rows' = [] := by simpa [directAggregate, hrows] using h.symm
      rw [hrows, hrows']
      exact .of_perm (.refl [])
    · intro h
      rw [h.nil_iff.mp hrows, hrows]
  · constructor
    · intro h
      have hrows' : rows' ≠ [] := by
        rintro rfl
        simp [directAggregate, hrows] at h
      apply (totals_eq_iff hrows hrows').mp
      simpa [directAggregate, hrows, hrows'] using h
    · intro h
      have hrows' : rows' ≠ [] := mt h.nil_iff.mpr hrows
      simp only [directAggregate, hrows, hrows', if_false, (totals_eq_iff hrows hrows').mpr h]

/-- The rows of two hours weigh the same beside those between them. -/
structure SameShare (first middle last : List QueueJobMetric) : Prop where
  completed : (first.map fun m ↦ m.jobsCompleted).sum = (last.map fun m ↦ m.jobsCompleted).sum
  failed : (first.map fun m ↦ m.jobsFailed).sum = (last.map fun m ↦ m.jobsFailed).sum
  duration : (first.map fun m ↦ m.totalDuration).sum = (last.map fun m ↦ m.totalDuration).sum
  p95Duration : DominatedBy (fun m ↦ m.p95Duration) first (middle ++ last) ∧
    DominatedBy (fun m ↦ m.p95Duration) last (first ++ middle)
  activeWorkers : DominatedBy (fun m ↦ m.activeWorkers) first (middle ++ last) ∧
    DominatedBy (fun m ↦ m.activeWorkers) last (first ++ middle)

/-- The totals up to the last hour are those from the second on exactly if the two hours weigh
the same. -/
theorem sameTotals_shift_iff {first middle last : List QueueJobMetric} :
    SameTotals (first ++ middle) (middle ++ last) ↔ SameShare first middle last := by
  have hdominated {α : Type} [LinearOrder α] {f : QueueJobMetric → α} :
      DominatedBy f (first ++ middle) (middle ++ last) ∧
          DominatedBy f (middle ++ last) (first ++ middle) ↔
        DominatedBy f first (middle ++ last) ∧ DominatedBy f last (first ++ middle) := by
    have hleft : DominatedBy f middle (middle ++ last) :=
      .of_subset (List.subset_append_left _ _)
    have hright : DominatedBy f middle (first ++ middle) :=
      .of_subset (List.subset_append_right _ _)
    simp only [dominatedBy_append_left, hleft, hright, and_true, true_and]
  constructor
  · rintro ⟨hcompleted, hfailed, hduration, hp95, hworkers⟩
    simp only [List.map_append, List.sum_append] at hcompleted hfailed hduration
    constructor
    · omega
    · omega
    · linarith
    · exact hdominated.mp hp95
    · exact hdominated.mp hworkers
  · rintro ⟨hcompleted, hfailed, hduration, hp95, hworkers⟩
    constructor
    · simp only [List.map_append, List.sum_append]
      omega
    · simp only [List.map_append, List.sum_append]
      omega
    · simp only [List.map_append, List.sum_append]
      linarith
    · exact hdominated.mpr hp95
    · exact hdominated.mpr hworkers

end Totals

end JobWorker
