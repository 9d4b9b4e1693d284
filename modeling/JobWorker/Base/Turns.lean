import JobWorker.Base.Runs
import Mathlib.Data.Finset.Card

/-!
# Waiting for a turn

A customer waits while others are ahead of it. Each turn that is not its own takes one of them
away, so that it is passed over at most as often as there have been others ahead.
-/

namespace Transition

variable {σ α K : Type} [DecidableEq K] (ahead : σ → Finset K)

/-- How many have got ahead in the steps of a run. -/
def arrivals : List (σ × α) → σ → Nat
  | [], _ => 0
  | (s, _) :: past, s' => (ahead s' \ ahead s).card + arrivals past s

variable {ahead} {step : σ → α → σ → Prop} {past : List (σ × α)} {s s₀ : σ}

/-- A queue `B` from which one of `A` has gone. -/
theorem card_add_one_le_of_mem {A B : Finset K} {k : K} (hk : k ∈ A) (hk' : k ∉ B) :
    B.card + 1 ≤ A.card + (B \ A).card := by
  have hsdiff : B \ A.erase k = B \ A := by
    ext i
    simp only [Finset.mem_sdiff, Finset.mem_erase, not_and, ne_eq]
    constructor
    · rintro ⟨hi, hn⟩
      exact ⟨hi, hn fun heq ↦ hk' (heq ▸ hi)⟩
    · rintro ⟨hi, hn⟩
      exact ⟨hi, fun _ ↦ hn⟩
  have hle : B.card ≤ (B \ A.erase k).card + (A.erase k).card :=
    Finset.card_le_card_sdiff_add_card
  rw [hsdiff, Finset.card_erase_of_mem hk] at hle
  have hpos := Finset.card_pos.mpr ⟨k, hk⟩
  omega

/-- Turns of others are paid for by those who were ahead and those who got ahead. -/
theorem Run.turns_add_card_le {turn : σ × α → Bool} (h : Run (· = s₀) step past s)
    (hturn : ∀ p ∈ past, turn p = true → ∀ s', step p.1 p.2 s' →
      ∃ k ∈ ahead p.1, k ∉ ahead s') :
    past.countP turn + (ahead s).card ≤ (ahead s₀).card + arrivals ahead past s := by
  induction h with
  | start h =>
    rw [h]
    exact (Nat.zero_add _).le
  | @step past s s' a _ hs ih =>
    have hpast := ih fun p hp ↦ hturn p (List.mem_cons_of_mem _ hp)
    rw [arrivals, List.countP_cons]
    cases ht : turn (s, a) with
    | false =>
      have hle : (ahead s').card ≤ (ahead s' \ ahead s).card + (ahead s).card :=
        Finset.card_le_card_sdiff_add_card
      simp only [Bool.false_eq_true, if_false]
      omega
    | true =>
      obtain ⟨k, hk, hk'⟩ := hturn (s, a) List.mem_cons_self ht s' hs
      have hlt : (ahead s').card + 1 ≤ (ahead s).card + (ahead s' \ ahead s).card :=
        card_add_one_le_of_mem hk hk'
      simp only [if_true]
      omega

end Transition
