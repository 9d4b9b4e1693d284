import Mathlib.Algebra.Order.Group.Defs
import Mathlib.Algebra.Order.Sub.Defs
import Mathlib.Data.List.Basic

/-!
# A budget of restarts

A service that is restarted whenever it has died, each death being counted once. Deaths are
listed with their times; when the list holds `limit` deaths of the last `window`, the
service is quarantined, until a later look at the list finds fewer. Restarts are then
limited to `limit` in every time window of that length, however long the steps take.
-/

namespace RestartBudget

variable {T : Type} [LinearOrder T]

/-- A supervised service. `deaths` and `restarts` are the whole history. -/
structure State (T : Type) where
  now : T
  listed : List T := []
  quarantined : Bool := false
  counted : Bool := false
  deaths : List T := []
  restarts : List T := []

/-- The last element that meets a predicate has as many before it as meet it, or more. -/
theorem exists_last {α : Type} {p : α → Bool} {l : List α} (h : 0 < l.countP p) :
    ∃ i a, l[i]? = some a ∧ p a = true ∧ l.countP p ≤ i + 1 := by
  induction l with
  | nil => cases h
  | cons a l ih =>
    rw [List.countP_cons] at h ⊢
    by_cases hl : 0 < l.countP p
    · obtain ⟨i, b, hb, hp, hle⟩ := ih hl
      refine ⟨i + 1, b, hb, hp, ?_⟩
      split <;> omega
    · have hp : p a = true := by
        by_contra hn
        rw [if_neg hn] at h
        omega
      refine ⟨0, a, rfl, hp, ?_⟩
      rw [if_pos hp]
      omega

/-- Fewer times are later. -/
theorem countP_anti {c d : T} {times : List T} (h : c ≤ d) :
    times.countP (fun t ↦ decide (d ≤ t)) ≤ times.countP fun t ↦ decide (c ≤ t) := by
  apply List.countP_mono_left
  intro t _ ht
  rw [decide_eq_true_eq] at ht ⊢
  exact h.trans ht

variable [AddCommGroup T]

/-- The times of a list that are within the window. -/
def recent (window now : T) (times : List T) : List T :=
  times.filter fun t ↦ decide (now - window ≤ t)

/-- The steps of the supervisor: time passes, a death is listed, a quarantine is looked at,
and a service whose death is counted is restarted. -/
inductive Step (window : T) (limit : Nat) (s : State T) : State T → Prop
  | elapse {t : T} : s.now ≤ t → Step window limit s { s with now := t }
  | record {t u : T} : s.now ≤ t → t ≤ u → s.counted = false →
      Step window limit s
        { s with
          now := u
          listed := recent window u (s.listed ++ [t])
          quarantined :=
            s.quarantined || decide (limit ≤ (recent window u (s.listed ++ [t])).length)
          counted := true
          deaths := t :: s.deaths }
  | expire {t : T} : s.now ≤ t →
      Step window limit s
        { s with
          now := t
          listed := recent window t s.listed
          quarantined := s.quarantined && decide (limit ≤ (recent window t s.listed).length) }
  | restart {t : T} : s.now ≤ t → s.quarantined = false → s.counted = true →
      Step window limit s { s with now := t, counted := false, restarts := t :: s.restarts }

/-- Looking at the recent times loses none that are later. -/
theorem countP_recent {window now c : T} {times : List T} (h : now - window ≤ c) :
    (recent window now times).countP (fun t ↦ decide (c ≤ t)) =
      times.countP fun t ↦ decide (c ≤ t) := by
  rw [recent, List.countP_filter]
  congr 1
  ext t
  rw [Bool.eq_iff_iff, Bool.and_eq_true, decide_eq_true_eq, decide_eq_true_eq]
  exact ⟨And.left, fun hc ↦ ⟨hc, h.trans hc⟩⟩

/-- What every step keeps: recent deaths are listed, a service that is not quarantined has
died less often than the limit, each restart is followed by a death before the next, and
the restarts are within the budget. -/
structure Kept (window : T) (limit : Nat) (s : State T) : Prop where
  restarts_le : ∀ r ∈ s.restarts, r ≤ s.now
  listed : ∀ c, s.now - window ≤ c →
    s.deaths.countP (fun t ↦ decide (c ≤ t)) ≤ s.listed.countP fun t ↦ decide (c ≤ t)
  below : s.quarantined = false →
    s.deaths.countP (fun t ↦ decide (s.now - window ≤ t)) < limit
  gaps : ∀ i r, s.restarts[i]? = some r →
    i + s.counted.toNat ≤ s.deaths.countP fun t ↦ decide (r ≤ t)
  budget : ∀ t, s.restarts.countP (fun r ↦ decide (t ≤ r ∧ r ≤ t + window)) ≤ limit

section Step

variable {window : T} {limit : Nat} {s s' : State T}

/-- A service that has never died. -/
theorem kept_init (hl : 0 < limit) {now : T} : Kept window limit { now } where
  restarts_le := by simp
  listed := by simp
  below := by simpa using hl
  gaps := by simp
  budget := by simp

/-- Within a list of recent deaths, fewer than the limit are few deaths. -/
theorem below_of_length {now : T} {deaths times : List T}
    (hlisted : deaths.countP (fun t ↦ decide (now - window ≤ t)) ≤
      (recent window now times).countP fun t ↦ decide (now - window ≤ t))
    (hlength : ¬ limit ≤ (recent window now times).length) :
    deaths.countP (fun t ↦ decide (now - window ≤ t)) < limit :=
  (hlisted.trans List.countP_le_length).trans_lt (not_le.mp hlength)

variable [IsOrderedAddMonoid T]

/-- A restart of a service that is not quarantined leaves the budget. -/
theorem Kept.restart (h : Kept window limit s) (hpos : 0 < limit)
    (hq : s.quarantined = false) (hc : s.counted = true) {u t : T} (hu : s.now ≤ u)
    (hut : u ≤ t + window) :
    s.restarts.countP (fun r ↦ decide (t ≤ r ∧ r ≤ t + window)) < limit := by
  by_cases hn : 0 < s.restarts.countP fun r ↦ decide (t ≤ r ∧ r ≤ t + window)
  · obtain ⟨i, r, hr, hp, hle⟩ := exists_last hn
    have hgap := h.gaps i r hr
    rw [hc, Bool.toNat_true] at hgap
    have hlate : s.now - window ≤ r :=
      (sub_le_iff_le_add.mpr (hu.trans hut)).trans (of_decide_eq_true hp).1
    have hanti : s.deaths.countP (fun t ↦ decide (r ≤ t)) ≤
        s.deaths.countP fun t ↦ decide (s.now - window ≤ t) := countP_anti hlate
    have hbelow := h.below hq
    omega
  · omega

/-- Every step keeps the budget. -/
theorem kept_step (hpos : 0 < limit) (h : Step window limit s s')
    (hk : Kept window limit s) : Kept window limit s' := by
  cases h with
  | @elapse t ht =>
    have hw : s.now - window ≤ t - window := sub_le_sub_right ht window
    exact ⟨fun r hr ↦ (hk.restarts_le r hr).trans ht, fun c hc ↦ hk.listed c (hw.trans hc),
      fun hq ↦ (countP_anti hw).trans_lt (hk.below hq), hk.gaps, hk.budget⟩
  | @record t u ht hu hc =>
    have hnow := ht.trans hu
    have hw : s.now - window ≤ u - window := sub_le_sub_right hnow window
    have hlisted (c : T) (hc : u - window ≤ c) :
        (t :: s.deaths).countP (fun t ↦ decide (c ≤ t)) ≤
          (recent window u (s.listed ++ [t])).countP fun t ↦ decide (c ≤ t) := by
      have hl := hk.listed c (hw.trans hc)
      rw [countP_recent hc, List.countP_append, List.countP_cons, List.countP_singleton]
      omega
    refine ⟨fun r hr ↦ (hk.restarts_le r hr).trans hnow, hlisted, fun hq ↦ ?_,
      fun i r hr ↦ ?_, hk.budget⟩
    · rw [Bool.or_eq_false_iff, decide_eq_false_iff_not] at hq
      exact below_of_length (hlisted _ le_rfl) hq.2
    · have hgap := hk.gaps i r hr
      rw [hc, Bool.toNat_false] at hgap
      have hr := (hk.restarts_le r (List.mem_of_getElem? hr)).trans ht
      rw [List.countP_cons, if_pos (decide_eq_true hr), Bool.toNat_true]
      omega
  | @expire t ht =>
    have hw : s.now - window ≤ t - window := sub_le_sub_right ht window
    have hlisted (c : T) (hc : t - window ≤ c) :
        s.deaths.countP (fun t ↦ decide (c ≤ t)) ≤
          (recent window t s.listed).countP fun t ↦ decide (c ≤ t) := by
      rw [countP_recent hc]
      exact hk.listed c (hw.trans hc)
    refine ⟨fun r hr ↦ (hk.restarts_le r hr).trans ht, hlisted, fun hq ↦ ?_, hk.gaps,
      hk.budget⟩
    rw [Bool.and_eq_false_iff, decide_eq_false_iff_not] at hq
    rcases hq with hq | hq
    · exact (countP_anti hw).trans_lt (hk.below hq)
    · exact below_of_length (hlisted _ le_rfl) hq
  | @restart t ht hq hc =>
    have hw : s.now - window ≤ t - window := sub_le_sub_right ht window
    refine ⟨?_, fun c hc ↦ hk.listed c (hw.trans hc),
      fun hq ↦ (countP_anti hw).trans_lt (hk.below hq), fun i r hr ↦ ?_, fun b ↦ ?_⟩
    · rintro r (_ | ⟨_, hr⟩)
      · exact le_rfl
      · exact (hk.restarts_le r hr).trans ht
    · cases i with
      | zero => simp
      | succ i =>
        have hgap := hk.gaps i r hr
        rw [hc, Bool.toNat_true] at hgap
        exact hgap
    · rw [List.countP_cons]
      split
      · next hin =>
        have hlt := hk.restart hpos hq hc ht (of_decide_eq_true hin).2
        omega
      · exact hk.budget b

end Step

end RestartBudget
