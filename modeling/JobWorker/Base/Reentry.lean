import Mathlib.Data.Finset.Card
import Mathlib.Logic.Relation

/-!
# Descents that come back

Steps over finitely many places, of which all but the slow ones lower a measure that none
raises. A descent without end comes back to a place by slow steps alone.
-/

namespace Reentry

open Relation

variable {σ V : Type} {step : σ → σ → Prop} {slow : σ → Prop} {place : σ → V} {μ : σ → Nat}
  {s : σ}

/-- A state below `s` comes back to its place by slow steps. -/
def ComesBack (step : σ → σ → Prop) (slow : σ → Prop) (place : σ → V) (s : σ) : Prop :=
  ∃ a b, ReflTransGen step s a ∧ TransGen (fun a b ↦ slow a ∧ step a b) a b ∧ place b = place a

/-- Who comes back goes round a cycle of places. -/
theorem ComesBack.exists_cycle {edge : V → V → Prop} (h : ComesBack step slow place s)
    (hedge : ∀ a b, ReflTransGen step s a → slow a → step a b → edge (place a) (place b)) :
    ∃ a, ReflTransGen step s a ∧ TransGen edge (place a) (place a) := by
  obtain ⟨a, b, ha, hab, hplace⟩ := h
  have hpath (c : σ) (hac : TransGen (fun a b ↦ slow a ∧ step a b) a c) :
      ReflTransGen step s c ∧ TransGen edge (place a) (place c) := by
    induction hac with
    | single h => exact ⟨ha.tail h.2, .single (hedge _ _ ha h.1 h.2)⟩
    | tail _ h ih => exact ⟨ih.1.tail h.2, ih.2.tail (hedge _ _ ih.1 h.1 h.2)⟩
  have hcycle := (hpath b hab).2
  rw [hplace] at hcycle
  exact ⟨a, ha, hcycle⟩

section Descent

variable [DecidableEq V] {places : Finset V}

/-- No descent below `a` is without end, where slow steps have come to `a` from states at the
places `visited`. -/
theorem acc_of_visited (hplaces : ∀ a, ReflTransGen step s a → place a ∈ places)
    (hle : ∀ a b, ReflTransGen step s a → step a b → μ b ≤ μ a)
    (hlt : ∀ a b, ReflTransGen step s a → step a b → ¬ slow a → μ b < μ a)
    (hback : ¬ ComesBack step slow place s) (a : σ) (ha : ReflTransGen step s a)
    (visited : Finset V) (hvisited : ∀ v ∈ visited, ∃ c, ReflTransGen step s c ∧ place c = v ∧
      TransGen (fun a b ↦ slow a ∧ step a b) c a) : Acc (fun b a ↦ step a b) a := by
  refine Acc.intro a fun b hb ↦ ?_
  by_cases hμ : μ b < μ a
  · exact acc_of_visited hplaces hle hlt hback b (ha.tail hb) ∅ nofun
  · have hslow : slow a := by
      by_contra hn
      exact hμ (hlt a b ha hb hn)
    have hfresh : place a ∉ visited := by
      intro hmem
      obtain ⟨c, hc, hplace, hca⟩ := hvisited _ hmem
      exact hback ⟨c, a, hc, hca, hplace.symm⟩
    have hcard : (places \ insert (place a) visited).card < (places \ visited).card := by
      apply Finset.card_lt_card
      rw [Finset.sdiff_insert]
      exact Finset.erase_ssubset (Finset.mem_sdiff.mpr ⟨hplaces a ha, hfresh⟩)
    refine acc_of_visited hplaces hle hlt hback b (ha.tail hb) (insert (place a) visited) ?_
    intro v hv
    rcases Finset.mem_insert.mp hv with rfl | hv
    · exact ⟨a, ha, rfl, .single ⟨hslow, hb⟩⟩
    · obtain ⟨c, hc, hplace, hca⟩ := hvisited v hv
      exact ⟨c, hc, hplace, hca.tail ⟨hslow, hb⟩⟩
termination_by (μ a, (places \ visited).card)
decreasing_by
  · exact Prod.Lex.left _ _ hμ
  · rw [Nat.le_antisymm (hle a b ha hb) (Nat.not_lt.mp hμ)]
    exact Prod.Lex.right _ hcard

/-- Without a state that comes back every descent ends. -/
theorem acc_of_not_comesBack (hplaces : ∀ a, ReflTransGen step s a → place a ∈ places)
    (hle : ∀ a b, ReflTransGen step s a → step a b → μ b ≤ μ a)
    (hlt : ∀ a b, ReflTransGen step s a → step a b → ¬ slow a → μ b < μ a)
    (hback : ¬ ComesBack step slow place s) : Acc (fun b a ↦ step a b) s :=
  acc_of_visited hplaces hle hlt hback s .refl ∅ nofun

end Descent

/-- Where every state of a kind has one of its kind below it, none is without descent. -/
theorem not_acc_of_recurs {I : σ → Prop} (h : ∀ a, I a → ∃ b, TransGen step a b ∧ I b) {a : σ}
    (ha : I a) : ¬ Acc (fun b a ↦ step a b) a := by
  intro hacc
  have hswap (a b : σ) (hab : TransGen step a b) : TransGen (fun b a ↦ step a b) b a :=
    transGen_swap.mpr hab
  induction hacc.transGen with
  | intro a _ ih =>
    obtain ⟨b, hab, hb⟩ := h a ha
    exact ih b (hswap a b hab) hb (hacc.inv_of_transGen (hswap a b hab))

end Reentry
