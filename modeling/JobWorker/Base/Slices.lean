import Mathlib.Data.List.Flatten
import Mathlib.Data.List.Nodup
import Mathlib.Data.List.Range
import Mathlib.Data.Int.Order.Basic

/-!
# Slices of a list

The slices `xs[i : i + step]` at every `i` of `range(0, len(xs), step)`. A positive step cuts the
list into pieces; a negative one yields nothing.
-/

namespace Slices

variable {α : Type}

/-- The numbers from 0 on in steps of `step`, in front of `stop`; none for a negative step. -/
def indices (stop : Nat) (step : Int) : List Int :=
  if 0 < step then
    (List.range ((stop + step.toNat - 1) / step.toNat)).map fun i : Nat ↦ (i : Int) * step
  else []

/-- The part of a list from index `i` up to index `j`, for `0 ≤ i ≤ j`. -/
def slice (xs : List α) (i j : Int) : List α := (xs.take j.toNat).drop i.toNat

/-- The slices of length `step` that begin at the multiples of `step`. -/
def slices (xs : List α) (step : Int) : List (List α) :=
  (indices xs.length step).map fun i ↦ slice xs i (i + step)

section Positive

variable {xs : List α} {n : Nat}

/-- The slice number `i`. -/
def piece (xs : List α) (n i : Nat) : List α := (xs.drop (i * n)).take n

theorem slices_eq (h : 0 < n) : slices xs n =
    (List.range ((xs.length + n - 1) / n)).map (piece xs n) := by
  rw [slices, indices, if_pos (by omega), List.map_map, Int.toNat_natCast]
  apply List.map_congr_left
  intro i _
  show slice xs ((i : Int) * n) ((i : Int) * n + n) = piece xs n i
  have hstart : ((i : Int) * n).toNat = i * n := by
    rw [← Int.natCast_mul, Int.toNat_natCast]
  have hend : ((i : Int) * n + n).toNat = i * n + n := by
    rw [← Int.natCast_mul, ← Int.natCast_add, Int.toNat_natCast]
  rw [slice, piece, hstart, hend, List.drop_take, Nat.add_sub_cancel_left]

theorem flatten_pieces (xs : List α) (n count : Nat) :
    ((List.range count).map (piece xs n)).flatten = xs.take (count * n) := by
  induction count with
  | zero => simp
  | succ count ih =>
    rw [List.range_succ, List.map_append, List.flatten_append, ih, Nat.add_mul, Nat.one_mul,
      List.take_add]
    simp [piece]

/-- Of the pieces that are there, none is empty. -/
theorem piece_ne_nil {i : Nat} (hn : 0 < n) (h : i < (xs.length + n - 1) / n) :
    piece xs n i ≠ [] := by
  have hmul : (i + 1) * n ≤ xs.length + n - 1 := (Nat.le_div_iff_mul_le hn).mp h
  rw [Nat.add_mul, Nat.one_mul] at hmul
  rw [← List.length_pos_iff, piece, List.length_take, List.length_drop]
  omega

end Positive

section Slices

variable {xs : List α} {step : Int}

/-- The slices cut the list into pieces. -/
theorem flatten_slices (h : 0 < step) : (slices xs step).flatten = xs := by
  obtain ⟨n, rfl⟩ := Int.eq_ofNat_of_zero_le h.le
  have hn : 0 < n := by omega
  have hdiv := Nat.div_add_mod (xs.length + n - 1) n
  have hmod := Nat.mod_lt (xs.length + n - 1) hn
  rw [Nat.mul_comm] at hdiv
  rw [slices_eq hn, flatten_pieces]
  apply List.take_of_length_le
  omega

/-- There are as many slices as it takes. -/
theorem lt_length_slices (h : 0 < step) {i : Nat} :
    i < (slices xs step).length ↔ (i : Int) * step < xs.length := by
  obtain ⟨n, rfl⟩ := Int.eq_ofNat_of_zero_le h.le
  have hn : 0 < n := by omega
  rw [slices_eq hn, List.length_map, List.length_range, Nat.lt_iff_add_one_le,
    Nat.le_div_iff_mul_le hn, Nat.add_mul, Nat.one_mul]
  show i * n + n ≤ xs.length + n - 1 ↔ (i : Int) * n < xs.length
  rw [← Int.natCast_mul]
  omega

/-- A slice is one of the pieces. -/
theorem exists_piece {part : List α} (h : part ∈ slices xs step) :
    0 < step ∧ ∃ i < (xs.length + step.toNat - 1) / step.toNat, part = piece xs step.toNat i := by
  by_cases hstep : 0 < step
  · obtain ⟨n, rfl⟩ := Int.eq_ofNat_of_zero_le hstep.le
    rw [slices_eq (by omega)] at h
    obtain ⟨i, hi, rfl⟩ := List.mem_map.mp h
    exact ⟨hstep, i, List.mem_range.mp hi, rfl⟩
  · rw [slices, indices, if_neg hstep] at h
    exact absurd h List.not_mem_nil

theorem length_le_of_mem_slices {part : List α} (h : part ∈ slices xs step) :
    (part.length : Int) ≤ step := by
  obtain ⟨hstep, i, _, rfl⟩ := exists_piece h
  rw [piece, List.length_take]
  omega

theorem ne_nil_of_mem_slices {part : List α} (h : part ∈ slices xs step) : part ≠ [] := by
  obtain ⟨hstep, i, hi, rfl⟩ := exists_piece h
  exact piece_ne_nil (by omega) hi

theorem slices_nil : slices ([] : List α) step = [] := by
  apply List.eq_nil_iff_forall_not_mem.mpr
  intro part h
  obtain ⟨_, i, _, rfl⟩ := exists_piece h
  exact ne_nil_of_mem_slices h (by simp [piece])

/-- Pieces of a list without repetitions differ. -/
theorem pairwise_ne_slices (h : xs.Nodup) : (slices xs step).Pairwise (· ≠ ·) := by
  by_cases hstep : 0 < step
  · have hflatten : (slices xs step).flatten = xs := flatten_slices hstep
    rw [← hflatten] at h
    refine (List.nodup_flatten.mp h).2.imp_of_mem fun {a b} ha _ hab heq ↦ ?_
    subst heq
    obtain ⟨x, hx⟩ := List.exists_mem_of_ne_nil a (ne_nil_of_mem_slices ha)
    exact hab hx hx
  · rw [slices, indices, if_neg hstep]
    exact .nil

/-- Parts that are not empty cannot be left out. -/
theorem eq_of_sublist_of_length_flatten {parts all : List (List α)} (h : parts.Sublist all)
    (hne : ∀ part ∈ all, part ≠ []) (hlength : parts.flatten.length = all.flatten.length) :
    parts = all := by
  induction h with
  | slnil => rfl
  | @cons parts all part hsub ih =>
    exfalso
    obtain ⟨hpart, _⟩ := List.forall_mem_cons.mp hne
    have hle := hsub.flatten.length_le
    have hpos := List.length_pos_iff.mpr hpart
    rw [List.flatten_cons, List.length_append] at hlength
    omega
  | cons_cons part _ ih =>
    rw [List.flatten_cons, List.flatten_cons, List.length_append, List.length_append] at hlength
    rw [ih (List.forall_mem_cons.mp hne).2 (Nat.add_left_cancel hlength)]

end Slices

end Slices
