import JobWorker.Base.Runs

/-!
# Wake-ups that are not lost

A consumer that looks for work, and sleeps when it has a reason to. Publications wake it, if
it has subscribed before it began to look. Then it never sleeps for a reason that is older
than a publication: either a wake-up is pending, or its reason is newer than all of them.
-/

namespace Transition

variable {σ α : Type} (publishes delivers resets excuses : σ → α → Prop)

/-- A wake-up has been delivered and not been consumed since. -/
def WakeUpPending : List (σ × α) → Prop
  | [] => False
  | (s, a) :: past => ¬ resets s a ∧ (delivers s a ∨ WakeUpPending past)

/-- There has been a reason since the last publication. -/
def Excused : List (σ × α) → Prop
  | [] => False
  | (s, a) :: past => ¬ publishes s a ∧ (excuses s a ∨ Excused past)

instance decidableWakeUpPending [∀ s a, Decidable (delivers s a)] [∀ s a, Decidable (resets s a)] :
    ∀ past, Decidable (WakeUpPending delivers resets past)
  | [] => isFalse id
  | (s, a) :: past =>
    have := decidableWakeUpPending past
    inferInstanceAs (Decidable (¬ resets s a ∧ (delivers s a ∨ WakeUpPending delivers resets past)))

variable {publishes excuses}
variable {init : σ → Prop} {step : σ → α → σ → Prop} {past : List (σ × α)} {s : σ}

/-- The reason, and what has happened since. -/
theorem excused_iff : Excused publishes excuses past ↔ ∃ later s a earlier,
    past = later ++ (s, a) :: earlier ∧ excuses s a ∧ ¬ publishes s a ∧
      ∀ p ∈ later, ¬ publishes p.1 p.2 := by
  induction past with
  | nil =>
    constructor
    · exact fun h ↦ h.elim
    · intro h
      obtain ⟨later, s, a, earlier, h, _⟩ := h
      cases later <;> cases h
  | cons p past ih =>
    obtain ⟨t, b⟩ := p
    rw [Excused, ih]
    constructor
    · rintro ⟨hp, he | ⟨later, s, a, earlier, rfl, he, hs, hlater⟩⟩
      · exact ⟨[], t, b, past, rfl, he, hp, fun p hp ↦ by cases hp⟩
      · refine ⟨(t, b) :: later, s, a, earlier, rfl, he, hs, fun q hq ↦ ?_⟩
        rcases List.mem_cons.mp hq with rfl | hq
        · exact hp
        · exact hlater q hq
    · rintro ⟨later, s, a, earlier, heq, he, hs, hlater⟩
      cases later with
      | nil =>
        cases heq
        exact ⟨hs, .inl he⟩
      | cons q later =>
        cases heq
        exact ⟨hlater _ List.mem_cons_self, .inr ⟨later, s, a, earlier, rfl, he, hs,
          fun p hp ↦ hlater p (List.mem_cons_of_mem _ hp)⟩⟩

/-- **No wake-up is lost** between a reason and the sleep: a state that owes a reason is only
entered for one, is left before wake-ups are consumed, and has subscribed. -/
theorem Run.wakeUpPending_or_excused (h : Run init step past s)
    (publishes delivers resets excuses : σ → α → Prop) (owes : σ → Prop)
    (hinit : ∀ s, init s → ¬ owes s)
    (hsubscribed : ∀ s a, owes s → publishes s a → delivers s a)
    (hstep : ∀ s a s', step s a s' → owes s' →
      excuses s a ∧ ¬ publishes s a ∨ owes s ∧ ¬ resets s a) (ho : owes s) :
    WakeUpPending delivers resets past ∨ Excused publishes excuses past := by
  induction h with
  | start h => exact absurd ho (hinit _ h)
  | @step past s s' a _ hs ih =>
    rcases hstep s a s' hs ho with ⟨he, hp⟩ | ⟨ho, hr⟩
    · exact .inr ⟨hp, .inl he⟩
    · rcases ih ho with hpending | hexcused
      · exact .inl ⟨hr, .inr hpending⟩
      · by_cases hp : publishes s a
        · exact .inl ⟨hr, .inl (hsubscribed s a ho hp)⟩
        · exact .inr ⟨hp, .inr hexcused⟩

end Transition
