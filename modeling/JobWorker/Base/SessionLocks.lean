import Mathlib.Logic.Function.Basic

/-!
# Session locks

Locks that belong to the session that has taken them and go when it is closed. A client keeps
the sessions that hold its locks, at most one for each resource, and a session is never used for
two of them.
-/

/-- The open sessions of the clients and the lock table. -/
structure SessionLocks (ι ρ : Type) where
  session : ι → ρ → Option Nat := fun _ _ ↦ none
  holder : ρ → Option Nat := fun _ ↦ none
  nextSession : Nat := 0

namespace SessionLocks

variable {ι ρ : Type} [DecidableEq ι] [DecidableEq ρ] (t : SessionLocks ι ρ) (i j : ι) (r q : ρ)

/-- Client `i` has an open session that holds the lock of `r`. -/
def Holds : Prop := ∃ c, t.session i r = some c ∧ t.holder r = some c

/-- A new session tries the lock of `r`; without it, it is closed again. -/
def tryLock : Option (SessionLocks ι ρ) :=
  if t.holder r = none then
    some {
      session := Function.update t.session i
        (Function.update (t.session i) r (some t.nextSession))
      holder := Function.update t.holder r (some t.nextSession)
      nextSession := t.nextSession + 1 }
  else none

/-- Client `i` closes its session for `r`. -/
def close : SessionLocks ι ρ :=
  { t with
    session := Function.update t.session i (Function.update (t.session i) r none)
    holder := fun q ↦ if q = r ∧ t.holder q = t.session i q then none else t.holder q }

/-- All sessions of client `i` are closed. -/
def closeAll : SessionLocks ι ρ :=
  { t with
    session := Function.update t.session i fun _ ↦ none
    holder := fun q ↦ if t.holder q = t.session i q then none else t.holder q }

/-- No session serves two clients, and the next one is new. -/
structure Sound : Prop where
  distinct : ∀ i j r c, t.session i r = some c → t.session j r = some c → i = j
  fresh : ∀ i r c, t.session i r = some c → c < t.nextSession

variable {t i j r q}

omit [DecidableEq ι] [DecidableEq ρ] in
/-- A lock has one holder. -/
theorem Holds.unique (h : t.Sound) (hi : t.Holds i r) (hj : t.Holds j r) : i = j := by
  obtain ⟨c, hc, hheld⟩ := hi
  obtain ⟨d, hd, hheld'⟩ := hj
  obtain rfl : c = d := Option.some.inj (hheld.symm.trans hheld')
  exact h.distinct i j r c hc hd

omit [DecidableEq ι] [DecidableEq ρ] in
/-- No sessions at the start. -/
theorem sound_empty : (({} : SessionLocks ι ρ)).Sound := ⟨nofun, nofun⟩

/-- The sessions behind a lock that was free. -/
theorem session_tryLock {t' : SessionLocks ι ρ} (h : t.tryLock i r = some t') :
    t'.session j q = if j = i ∧ q = r then some t.nextSession else t.session j q := by
  obtain ⟨_, h⟩ := Option.ite_none_right_eq_some.mp h
  cases h
  by_cases hj : j = i
  · subst hj
    by_cases hq : q = r <;> simp [hq]
  · simp [hj]

/-- The holders behind it. -/
theorem holder_tryLock {t' : SessionLocks ι ρ} (h : t.tryLock i r = some t') :
    t.holder r = none ∧
      t'.holder q = if q = r then some t.nextSession else t.holder q := by
  obtain ⟨hfree, h⟩ := Option.ite_none_right_eq_some.mp h
  cases h
  refine ⟨hfree, ?_⟩
  by_cases hq : q = r <;> simp [hq]

/-- A lock that was free is held, and the others as before. -/
theorem holds_tryLock {t' : SessionLocks ι ρ} (hs : t.Sound) (h : t.tryLock i r = some t') :
    t'.Holds j q ↔ j = i ∧ q = r ∨ t.Holds j q := by
  obtain ⟨hfree, hholder⟩ := holder_tryLock h (q := q)
  simp only [Holds, session_tryLock h, hholder]
  by_cases hq : q = r
  · subst hq
    by_cases hj : j = i
    · simp [hj]
    · simp only [hj, false_and, if_false, if_true, Option.some.injEq, hfree, reduceCtorEq,
        and_false, exists_false, or_false, iff_false, not_exists, not_and]
      rintro c hc rfl
      exact absurd (hs.fresh j q _ hc) (Nat.lt_irrefl _)
  · simp [hq]

/-- The next session is new again. -/
theorem Sound.tryLock {t' : SessionLocks ι ρ} (hs : t.Sound) (h : t.tryLock i r = some t') :
    t'.Sound := by
  have hnext : t'.nextSession = t.nextSession + 1 := by
    obtain ⟨_, h⟩ := Option.ite_none_right_eq_some.mp h
    cases h
    rfl
  constructor
  · intro a b q c ha hb
    rw [session_tryLock h] at ha hb
    split at ha <;> split at hb
    · next hai hbi => exact hai.1.trans hbi.1.symm
    · cases ha
      exact absurd (hs.fresh b q _ hb) (Nat.lt_irrefl _)
    · cases hb
      exact absurd (hs.fresh a q _ ha) (Nat.lt_irrefl _)
    · exact hs.distinct a b q c ha hb
  · intro a q c ha
    rw [session_tryLock h] at ha
    rw [hnext]
    split at ha
    · cases ha
      exact Nat.lt_succ_self _
    · exact Nat.lt_succ_of_lt (hs.fresh a q c ha)

/-- The sessions behind a close. -/
theorem session_close :
    (t.close i r).session j q = if j = i ∧ q = r then none else t.session j q := by
  by_cases hj : j = i
  · subst hj
    by_cases hq : q = r <;> simp [close, hq]
  · simp [close, hj]

/-- A closed session holds nothing, and the others what they held. -/
theorem holds_close (hs : t.Sound) :
    (t.close i r).Holds j q ↔ t.Holds j q ∧ ¬ (j = i ∧ q = r) := by
  simp only [Holds, session_close]
  by_cases h : j = i ∧ q = r
  · simp [h]
  · simp only [h, if_false, not_false_eq_true, and_true]
    refine exists_congr fun c ↦ and_congr_right fun hc ↦ ?_
    show (if q = r ∧ t.holder q = t.session i q then none else t.holder q) = some c ↔ _
    split
    · next hq =>
      -- The holder was a session of `i`, so it is none of `j`.
      refine iff_of_false nofun fun hheld ↦ h ⟨?_, hq.1⟩
      exact hs.distinct j i q c hc (hq.2.symm.trans hheld)
    · rfl

omit [DecidableEq ρ] in
/-- A client without sessions holds nothing, and the others what they held. -/
theorem holds_closeAll (hs : t.Sound) :
    (t.closeAll i).Holds j q ↔ t.Holds j q ∧ j ≠ i := by
  by_cases hj : j = i
  · simp [Holds, closeAll, hj]
  · simp only [Holds, closeAll, Function.update_of_ne hj, hj, ne_eq, not_false_eq_true, and_true]
    refine exists_congr fun c ↦ and_congr_right fun hc ↦ ?_
    split
    · next hq =>
      exact iff_of_false nofun fun hheld ↦ hj (hs.distinct j i q c hc (hq.symm.trans hheld))
    · rfl

omit [DecidableEq ι] [DecidableEq ρ] in
/-- Closing sessions keeps the rest apart. -/
theorem Sound.of_session {t' : SessionLocks ι ρ} (hs : t.Sound)
    (hsession : ∀ j q c, t'.session j q = some c → t.session j q = some c)
    (hnext : t'.nextSession = t.nextSession) : t'.Sound :=
  ⟨fun a b q c ha hb ↦ hs.distinct a b q c (hsession a q c ha) (hsession b q c hb),
    fun a q c ha ↦ hnext ▸ hs.fresh a q c (hsession a q c ha)⟩

theorem Sound.close (hs : t.Sound) : (t.close i r).Sound := by
  refine hs.of_session (fun j q c h ↦ ?_) rfl
  rw [session_close] at h
  split at h
  · cases h
  · exact h

omit [DecidableEq ρ] in
theorem Sound.closeAll (hs : t.Sound) : (t.closeAll i).Sound := by
  refine hs.of_session (fun j q c h ↦ ?_) rfl
  by_cases hj : j = i
  · subst hj
    simp [SessionLocks.closeAll] at h
  · simpa [SessionLocks.closeAll, hj] using h

end SessionLocks
