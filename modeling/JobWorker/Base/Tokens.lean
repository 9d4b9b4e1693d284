import JobWorker.Base.Runs

/-!
# Tokens and latches

A token can be taken while it is held, and is held again only once it has been given back. A
latch that is set stays set. Whatever holds at the end of a run and not at its start has a last
step since which it holds.
-/

namespace Transition

variable {σ α : Type} {init : σ → Prop} {step : σ → α → σ → Prop} {past : List (σ × α)} {s : σ}

/-- A token is taken at most as often as it has been given, and once if it was held. -/
theorem Run.takes_add_le {held : σ → Bool} {takes gives : σ × α → Bool}
    (h : Run init step past s)
    (htake : ∀ p ∈ past, ∀ s', step p.1 p.2 s' → takes p = true →
      held p.1 = true ∧ held s' = false)
    (hgive : ∀ p ∈ past, ∀ s', step p.1 p.2 s' → held p.1 = false → held s' = true →
      gives p = true) :
    past.countP takes + (held s).toNat ≤ past.countP gives + 1 := by
  induction h with
  | @start s =>
    have hle := Bool.toNat_le (held s)
    simpa using hle
  | @step past s s' a _ hs ih =>
    have hpast := ih (fun p hp ↦ htake p (List.mem_cons_of_mem _ hp))
      fun p hp ↦ hgive p (List.mem_cons_of_mem _ hp)
    have htake := htake (s, a) List.mem_cons_self s' hs
    have hgive := hgive (s, a) List.mem_cons_self s' hs
    rw [List.countP_cons, List.countP_cons]
    cases ht : takes (s, a) with
    | true =>
      obtain ⟨hheld, hgone⟩ := htake ht
      rw [hheld] at hpast
      simp only [hgone, if_true, Bool.toNat_true, Bool.toNat_false] at hpast ⊢
      omega
    | false =>
      cases hheld : held s with
      | true =>
        have hle := Bool.toNat_le (held s')
        rw [hheld] at hpast
        simp only [Bool.toNat_true, Bool.false_eq_true, if_false] at hpast ⊢
        omega
      | false =>
        rw [hheld] at hpast
        cases hheld' : held s' with
        | true =>
          rw [hgive hheld hheld']
          simp only [if_true, Bool.toNat_true, Bool.toNat_false, Bool.false_eq_true, if_false]
            at hpast ⊢
          omega
        | false =>
          simp only [Bool.toNat_false, Bool.false_eq_true, if_false] at hpast ⊢
          omega

/-- A latch is set once a step has set it. -/
theorem Run.latched_iff {P : σ → Prop} {sets : σ × α → Bool} (h : Run init step past s)
    (hinit : ∀ s, init s → ¬ P s)
    (hkeep : ∀ p ∈ past, ∀ s', step p.1 p.2 s' → P p.1 → P s')
    (hset : ∀ p ∈ past, ∀ s', step p.1 p.2 s' → ¬ P p.1 →
      (P s' ↔ sets p = true)) :
    P s ↔ 0 < past.countP sets := by
  induction h with
  | start h => exact iff_of_false (hinit _ h) (by simp)
  | @step past s s' a _ hs ih =>
    have hpast := ih (fun p hp ↦ hkeep p (List.mem_cons_of_mem _ hp))
      fun p hp ↦ hset p (List.mem_cons_of_mem _ hp)
    rw [List.countP_cons]
    by_cases hl : P s
    · have hpos := hpast.mp hl
      exact iff_of_true (hkeep (s, a) List.mem_cons_self s' hs hl) (by omega)
    · have hzero : past.countP sets = 0 := Nat.eq_zero_of_not_pos fun h ↦ hl (hpast.mpr h)
      rw [hset (s, a) List.mem_cons_self s' hs hl, hzero]
      cases sets (s, a) <;> simp

/-- The last step that has made `P` hold. -/
theorem Run.exists_turn {P : σ → Prop} (h : Run init step past s) (hinit : ∀ s, init s → ¬ P s)
    (hs : P s) : ∃ later t a earlier t', past = later ++ (t, a) :: earlier ∧ ¬ P t ∧ step t a t' ∧
      P t' ∧ ∀ p ∈ later, P p.1 := by
  induction h with
  | start h => exact absurd hs (hinit _ h)
  | @step past t s a _ hstep ih =>
    by_cases ht : P t
    · obtain ⟨later, u, b, earlier, u', rfl, hu, hstep', hu', hlater⟩ := ih ht
      exact ⟨(t, a) :: later, u, b, earlier, u', rfl, hu, hstep', hu',
        List.forall_mem_cons.mpr ⟨ht, hlater⟩⟩
    · exact ⟨[], t, a, past, s, rfl, ht, hstep, hs, fun p hp ↦ by cases hp⟩

end Transition
