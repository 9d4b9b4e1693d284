import Mathlib.Data.Set.Basic

/-!
# Elements below a set of seeds

`Below` is the least set that contains the admitted seeds and is closed under the edges
leaving its `through` elements into admitted ones. The laws describe one round of a
worklist and the composition of two sweeps.
-/

namespace Reachability

variable {α : Type}

/-- Elements that `enter` admits, from the seeds and along edges below `through`. -/
inductive Below (seed through enter : α → Prop) (edge : α → α → Prop) : α → Prop
  | seed {b : α} : seed b → enter b → Below seed through enter edge b
  | step {a b : α} : Below seed through enter edge a → through a → edge a b → enter b →
      Below seed through enter edge b

variable {seed seed' through through' enter enter' : α → Prop} {edge edge' : α → α → Prop}

/-- Every element below is admitted. -/
theorem Below.entered {b : α} (h : Below seed through enter edge b) : enter b := by
  cases h with
  | seed _ hb => exact hb
  | step _ _ _ hb => exact hb

/-- More seeds, edges and admissions reach more elements. -/
theorem Below.mono {b : α} (h : Below seed through enter edge b)
    (hs : ∀ a, seed a → seed' a) (ht : ∀ a, enter a → through a → through' a)
    (hn : ∀ a, enter a → enter' a) (he : ∀ a b, edge a b → edge' a b) :
    Below seed' through' enter' edge' b := by
  induction h with
  | seed ha hb => exact .seed (hs _ ha) (hn _ hb)
  | step ha hta hab hb ih => exact .step ih (ht _ ha.entered hta) (he _ _ hab) (hn _ hb)

/-- Equivalent seeds, edges and admissions reach the same elements. -/
theorem below_congr {b : α} (hs : ∀ a, seed a ↔ seed' a) (ht : ∀ a, through a ↔ through' a)
    (hn : ∀ a, enter a ↔ enter' a) (he : ∀ a b, edge a b ↔ edge' a b) :
    Below seed through enter edge b ↔ Below seed' through' enter' edge' b := by
  constructor <;> intro h
  · exact h.mono (fun a ↦ (hs a).mp) (fun a _ ↦ (ht a).mp) (fun a ↦ (hn a).mp)
      fun a b ↦ (he a b).mp
  · exact h.mono (fun a ↦ (hs a).mpr) (fun a _ ↦ (ht a).mpr) (fun a ↦ (hn a).mpr)
      fun a b ↦ (he a b).mpr

/-- `Below` is the least admitted set with its closure property. -/
theorem Below.least {P : α → Prop} {b : α} (h : Below seed through enter edge b)
    (hs : ∀ a, seed a → enter a → P a)
    (hp : ∀ a b, P a → through a → edge a b → enter b → P b) : P b := by
  induction h with
  | seed ha hb => exact hs _ ha hb
  | step _ ht he hb ih => exact hp _ _ ih ht he hb

/-- What is below the seeds is below one that is admitted. -/
theorem Below.exists_seed {b : α} (h : Below seed through enter edge b) :
    ∃ a, seed a ∧ enter a := by
  induction h with
  | seed ha hb => exact ⟨_, ha, hb⟩
  | step _ _ _ _ ih => exact ih

/-- No seed, no element below. -/
theorem not_below_of_no_seed {b : α} (hs : ∀ a, ¬ seed a) :
    ¬ Below seed through enter edge b := fun h ↦ by
  obtain ⟨a, ha, _⟩ := h.exists_seed
  exact hs a ha

/-- One round of a worklist: the seeds of the first kind are admitted now, and the
successors of those that are continued become seeds for the rest. -/
theorem below_round {b : α} :
    Below (fun a ↦ seed a ∨ seed' a) through enter edge b ↔
      (seed b ∧ enter b) ∨
        Below (fun c ↦ seed' c ∨ ∃ a, seed a ∧ enter a ∧ through a ∧ edge a c) through
          (fun a ↦ enter a ∧ ¬ seed a) edge b := by
  constructor
  · intro h
    induction h with
    | @seed b hs hb =>
      by_cases hn : seed b
      · exact .inl ⟨hn, hb⟩
      · exact .inr (.seed (.inl (hs.resolve_left hn)) ⟨hb, hn⟩)
    | @step a b _ ht he hb ih =>
      by_cases hn : seed b
      · exact .inl ⟨hn, hb⟩
      · rcases ih with ⟨hs, ha⟩ | ih
        · exact .inr (.seed (.inr ⟨a, hs, ha, ht, he⟩) ⟨hb, hn⟩)
        · exact .inr (.step ih ht he ⟨hb, hn⟩)
  · rintro (⟨hs, hb⟩ | h)
    · exact .seed (.inl hs) hb
    · induction h with
      | seed hs hb =>
        rcases hs with hs | ⟨a, hs, ha, ht, he⟩
        · exact .seed (.inr hs) hb.1
        · exact .step (.seed (.inl hs) ha) ht he hb.1
      | step _ ht he hb ih => exact .step ih ht he hb.1

/-- Seeds that are reached anyway can be left out. -/
theorem Below.of_seeds {b : α} (h : Below seed through enter edge b)
    (hs : ∀ a, seed a → enter a → Below seed' through enter edge a) :
    Below seed' through enter edge b := by
  induction h with
  | seed ha hb => exact hs _ ha hb
  | step _ ht he hb ih => exact .step ih ht he hb

/-- Two sweeps, the second over what the first has left, are one sweep from all seeds. -/
theorem below_compose {b : α} :
    Below (fun a ↦ seed a ∨ seed' a) (fun _ ↦ True) enter edge b ↔
      Below seed (fun _ ↦ True) enter edge b ∨
        Below seed' (fun _ ↦ True)
          (fun a ↦ enter a ∧ ¬ Below seed (fun _ ↦ True) enter edge a) edge b := by
  constructor
  · intro h
    induction h with
    | @seed b hs hb =>
      by_cases hn : Below seed (fun _ ↦ True) enter edge b
      · exact .inl hn
      · rcases hs with hs | hs
        · exact absurd (.seed hs hb) hn
        · exact .inr (.seed hs ⟨hb, hn⟩)
    | @step a b _ ht he hb ih =>
      by_cases hn : Below seed (fun _ ↦ True) enter edge b
      · exact .inl hn
      · rcases ih with ih | ih
        · exact absurd (.step ih ht he hb) hn
        · exact .inr (.step ih ht he ⟨hb, hn⟩)
  · rintro (h | h)
    · exact h.mono (fun _ ↦ .inl) (fun _ _ ht ↦ ht) (fun _ hb ↦ hb) fun _ _ he ↦ he
    · exact h.mono (fun _ ↦ .inr) (fun _ _ ht ↦ ht) (fun _ hb ↦ hb.1) fun _ _ he ↦ he

end Reachability
