import Mathlib.Data.List.Basic

/-!
# Fuelled computations

A function with a fuel argument computes a value when every large enough fuel gives it.
Computations compose, so the termination of a recursive function is shown call by call,
without a bound on the fuel.
-/

namespace Fuel

variable {α β : Type}

/-- From some fuel on, `f` returns `a`. -/
def Computes (f : Nat → Option α) (a : α) : Prop :=
  ∃ N, ∀ fuel, N ≤ fuel → f fuel = some a

/-- A value that needs no fuel. -/
theorem computes_some (a : α) : Computes (fun _ ↦ some a) a := ⟨0, fun _ _ ↦ rfl⟩

/-- A computation has one value. -/
theorem Computes.unique {f : Nat → Option α} {a b : α} (h : Computes f a)
    (h' : Computes f b) : a = b := by
  obtain ⟨N, hN⟩ := h
  obtain ⟨M, hM⟩ := h'
  have ha := hN (max N M) (Nat.le_max_left N M)
  rw [hM (max N M) (Nat.le_max_right N M)] at ha
  exact (Option.some.inj ha).symm

/-- A call that passes on one unit less of its fuel. -/
theorem Computes.succ {f g : Nat → Option α} {a : α} (h : Computes g a)
    (hf : ∀ fuel, f (fuel + 1) = g fuel) : Computes f a := by
  obtain ⟨N, hN⟩ := h
  refine ⟨N + 1, fun fuel hle ↦ ?_⟩
  obtain ⟨m, rfl⟩ : ∃ m, fuel = m + 1 := ⟨fuel - 1, by omega⟩
  rw [hf, hN m (by omega)]

/-- Two calls one after the other. -/
theorem Computes.bind {f : Nat → Option α} {g : Nat → α → Option β} {a : α} {b : β}
    (h : Computes f a) (h' : Computes (fun fuel ↦ g fuel a) b) :
    Computes (fun fuel ↦ f fuel >>= g fuel) b := by
  obtain ⟨N, hN⟩ := h
  obtain ⟨M, hM⟩ := h'
  refine ⟨max N M, fun fuel hle ↦ ?_⟩
  dsimp only
  rw [hN fuel (by omega)]
  exact hM fuel (by omega)

/-- The first round of a loop and the rest of it. -/
theorem Computes.foldlM_cons {g : Nat → α → β → Option α} {s s₁ s' : α} {b : β} {l : List β}
    (h : Computes (fun fuel ↦ g fuel s b) s₁)
    (h' : Computes (fun fuel ↦ l.foldlM (g fuel) s₁) s') :
    Computes (fun fuel ↦ (b :: l).foldlM (g fuel) s) s' := by
  simp only [List.foldlM_cons]
  exact h.bind h'

end Fuel
