import Mathlib.Algebra.Order.Group.Defs
import Mathlib.Data.List.Basic
import Mathlib.Algebra.Order.Monoid.Unbundled.Pow

/-!
# Events that keep a distance

Events listed with their times, the newest first, each a full gap behind the one before it.
A time window of `n` gaps then holds `n` of them at most.
-/

namespace Spacing

variable {T : Type} [AddCommMonoid T] [LinearOrder T] {gap t a : T} {times : List T}

/-- Every time is a full gap behind all earlier ones. -/
def Spaced (gap : T) (times : List T) : Prop := times.Pairwise fun late early ↦ early + gap ≤ late

/-- A newer event joins when the gap behind all others is over. -/
@[simp]
theorem spaced_cons : Spaced gap (a :: times) ↔ (∀ b ∈ times, b + gap ≤ a) ∧ Spaced gap times :=
  List.pairwise_cons

theorem spaced_nil : Spaced gap ([] : List T) := List.Pairwise.nil

/-- Leaving events out keeps the distance. -/
theorem Spaced.filter (h : Spaced gap times) (p : T → Bool) : Spaced gap (times.filter p) :=
  List.Pairwise.filter p h

variable [IsOrderedAddMonoid T]

/-- Shifting all events keeps the distance. -/
theorem Spaced.map_add (h : Spaced gap times) (d : T) : Spaced gap (times.map (· + d)) := by
  refine List.pairwise_map.mpr (List.Pairwise.imp (fun {late early} hle ↦ ?_) h)
  rw [add_right_comm]
  exact add_le_add_left hle d

/-- The newest of several events is that many gaps behind any time before them. -/
theorem Spaced.add_nsmul_le (h : Spaced gap (a :: times)) (ht : ∀ b ∈ a :: times, t ≤ b) :
    t + times.length • gap ≤ a := by
  induction times generalizing a with
  | nil =>
    rw [List.length_nil, zero_nsmul, add_zero]
    exact ht a List.mem_cons_self
  | cons b times ih =>
    obtain ⟨hgap, h⟩ := spaced_cons.mp h
    have hb : t + times.length • gap ≤ b := ih h fun c hc ↦ ht c (List.mem_cons_of_mem a hc)
    calc t + (b :: times).length • gap = t + times.length • gap + gap := by
          rw [List.length_cons, succ_nsmul, add_assoc]
      _ ≤ b + gap := add_le_add_left hb gap
      _ ≤ a := hgap b List.mem_cons_self

/-- A window of `n` gaps holds `n` events at most. -/
theorem Spaced.countP_le (h : Spaced gap times) (hgap : 0 ≤ gap) (t : T) (n : Nat) :
    times.countP (fun b ↦ decide (t ≤ b ∧ b < t + n • gap)) ≤ n := by
  rw [List.countP_eq_length_filter]
  have hin : ∀ b ∈ times.filter fun b ↦ decide (t ≤ b ∧ b < t + n • gap), t ≤ b ∧ b < t + n • gap :=
    fun b hb ↦ of_decide_eq_true (List.mem_filter.mp hb).2
  have hspaced := h.filter fun b ↦ decide (t ≤ b ∧ b < t + n • gap)
  cases hl : times.filter fun b ↦ decide (t ≤ b ∧ b < t + n • gap) with
  | nil => exact Nat.zero_le n
  | cons a rest =>
    rw [hl] at hin hspaced
    have hfirst := hspaced.add_nsmul_le fun b hb ↦ (hin b hb).1
    have hlast := (hin a List.mem_cons_self).2
    by_contra hn
    rw [List.length_cons] at hn
    have hle : n ≤ rest.length := by omega
    have hmono : n • gap ≤ rest.length • gap := nsmul_le_nsmul_left hgap hle
    exact absurd (hfirst.trans_lt hlast) (not_lt.mpr (add_le_add_right hmono t))

/-- Each date is behind its event, by `d` at most. -/
def DatedWithin (d : T) (dates times : List T) : Prop :=
  List.Forall₂ (fun date time ↦ time ≤ date ∧ date ≤ time + d) dates times

/-- A window of `n` gaps, less `d`, holds `n` dates at most. -/
theorem Spaced.countP_dates_le {dates : List T} {d : T} (h : Spaced gap times)
    (hdates : DatedWithin d dates times) (hgap : 0 ≤ gap) (t : T) (n : Nat) :
    dates.countP (fun b ↦ decide (t ≤ b ∧ b + d < t + n • gap)) ≤ n := by
  -- Behind `d` every event has been dated, and the shifted events are in the window.
  refine le_trans ?_ ((h.map_add d).countP_le hgap t n)
  rw [List.countP_map]
  clear h
  induction hdates with
  | nil => exact Nat.le_refl 0
  | @cons date time dates times hdate _ ih =>
    rw [List.countP_cons, List.countP_cons]
    apply Nat.add_le_add ih
    split
    · next hin =>
      obtain ⟨hstart, hend⟩ := of_decide_eq_true hin
      have hshifted : t ≤ time + d ∧ time + d < t + n • gap :=
        ⟨hstart.trans hdate.2, (add_le_add_left hdate.1 d).trans_lt hend⟩
      rw [Function.comp_apply, if_pos (decide_eq_true hshifted)]
    · exact Nat.zero_le _

end Spacing
