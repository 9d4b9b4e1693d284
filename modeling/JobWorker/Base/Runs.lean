import Mathlib.Data.List.Basic

/-!
# Runs of a transition relation

A run keeps the states it went through with the actions taken there, the newest first, so
that a statement can speak about the past of a step, about a part of a run, or about every
state of it.
-/

namespace Transition

variable {σ α : Type}

/-- A run that starts in a state of `init`. -/
inductive Run (init : σ → Prop) (step : σ → α → σ → Prop) : List (σ × α) → σ → Prop
  | start {s : σ} : init s → Run init step [] s
  | step {past : List (σ × α)} {s s' : σ} {a : α} :
      Run init step past s → step s a s' → Run init step ((s, a) :: past) s'

/-- The states of a run, the newest first. -/
def states (past : List (σ × α)) (s : σ) : List σ := s :: past.map Prod.fst

/-- Every step of a run meets `guard`, which looks at the state before it. -/
def Guarded (guard : σ → α → Prop) (past : List (σ × α)) : Prop :=
  ∀ p ∈ past, guard p.1 p.2

variable {init : σ → Prop} {step : σ → α → σ → Prop} {past mid : List (σ × α)} {s s' : σ}
  {a : α} {P : σ → Prop} {guard : σ → α → Prop}

@[simp]
theorem states_cons : states ((s, a) :: past) s' = s' :: states past s := rfl

@[simp]
theorem guarded_cons :
    Guarded guard ((s, a) :: past) ↔ guard s a ∧ Guarded guard past := by
  simp [Guarded]

/-- The last step of a run. -/
theorem run_cons :
    Run init step ((s, a) :: past) s' ↔ Run init step past s ∧ step s a s' := by
  constructor
  · rintro (_ | ⟨h, hs⟩)
    exact ⟨h, hs⟩
  · rintro ⟨h, hs⟩
    exact h.step hs

/-- What every guarded step keeps holds at the end of a guarded run. -/
theorem Run.invariant (h : Run init step past s) (hg : Guarded guard past)
    (hinit : ∀ s, init s → P s)
    (hstep : ∀ s a s', P s → guard s a → step s a s' → P s') : P s := by
  induction h with
  | start h => exact hinit _ h
  | step _ hs ih =>
    obtain ⟨ha, hg⟩ := guarded_cons.mp hg
    exact hstep _ _ _ (ih hg) ha hs

/-- What every step keeps holds at the end of a run. -/
theorem Run.always (h : Run init step past s) (hinit : ∀ s, init s → P s)
    (hstep : ∀ s a s', P s → step s a s' → P s') : P s := by
  induction h with
  | start h => exact hinit _ h
  | step _ hs ih => exact hstep _ _ _ ih hs

/-- A state before a step is itself reached by a run. -/
theorem Run.before (h : Run init step past s) {p : σ × α} (hp : p ∈ past) :
    ∃ past', Run init step past' p.1 := by
  induction h with
  | start _ => cases hp
  | @step past s s' a h _ ih =>
    rcases List.mem_cons.mp hp with rfl | hp
    · exact ⟨past, h⟩
    · exact ih hp

/-- What every guarded step keeps holds in every state of a guarded run. -/
theorem Run.invariant_states (h : Run init step past s) (hg : Guarded guard past)
    (hinit : ∀ s, init s → P s)
    (hstep : ∀ s a s', P s → guard s a → step s a s' → P s') :
    ∀ u ∈ states past s, P u := by
  induction h with
  | start h =>
    intro u hu
    rw [List.mem_singleton.mp hu]
    exact hinit _ h
  | step h hs ih =>
    obtain ⟨ha, hg⟩ := guarded_cons.mp hg
    intro u hu
    rcases List.mem_cons.mp hu with rfl | hu
    · exact hstep _ _ _ (h.invariant hg hinit hstep) ha hs
    · exact ih hg u hu

/-- Every state of a run is reached by a run. -/
theorem Run.prefix_of_mem (h : Run init step past s) {u : σ} (hu : u ∈ states past s) :
    ∃ past', Run init step past' u := by
  rcases List.mem_cons.mp hu with rfl | hu
  · exact ⟨past, h⟩
  · obtain ⟨p, hp, rfl⟩ := List.mem_map.mp hu
    exact h.before hp

/-- The state behind a step of a run is a state of the run. -/
theorem Run.after (h : Run init step past s) {p : σ × α} (hp : p ∈ past) :
    ∃ u ∈ states past s, step p.1 p.2 u := by
  induction h with
  | start _ => cases hp
  | step _ hs ih =>
    rcases List.mem_cons.mp hp with rfl | hp
    · exact ⟨_, List.mem_cons_self, hs⟩
    · obtain ⟨u, hu, hs⟩ := ih hp
      exact ⟨u, List.mem_cons_of_mem _ hu, hs⟩

/-- The part of a run behind one of its states is a run from there. -/
theorem Run.split (h : Run init step (mid ++ past) s) :
    ∃ t, Run init step past t ∧ Run (· = t) step mid s := by
  induction mid generalizing s with
  | nil => exact ⟨s, h, .start rfl⟩
  | cons p mid ih =>
    obtain ⟨h, hs⟩ := run_cons.mp h
    obtain ⟨t, ht, hm⟩ := ih h
    exact ⟨t, ht, hm.step hs⟩

/-- The states before the steps are states of the run. -/
theorem mem_states_of_mem {p : σ × α} (hp : p ∈ past) : p.1 ∈ states past s :=
  List.mem_cons_of_mem _ (List.mem_map_of_mem hp)

/-! ### Steps -/

/-- A run with the runs that it has been, the longest first. -/
def prefixes : List (σ × α) → σ → List (List (σ × α) × σ)
  | [], s => [([], s)]
  | (t, a) :: past, s => ((t, a) :: past, s) :: prefixes past t

/-- A run is a prefix of itself. -/
theorem self_mem_prefixes (past : List (σ × α)) (s : σ) : (past, s) ∈ prefixes past s := by
  cases past with
  | nil => exact List.mem_singleton_self _
  | cons p past => exact List.mem_cons_self

/-- A prefix is a run. -/
theorem Run.of_mem_prefixes (h : Run init step past s) {r : List (σ × α) × σ}
    (hr : r ∈ prefixes past s) : Run init step r.1 r.2 := by
  induction h with
  | start h =>
    rw [List.mem_singleton.mp hr]
    exact .start h
  | step h hs ih =>
    rcases List.mem_cons.mp hr with rfl | hr
    · exact h.step hs
    · exact ih hr

/-- A prefix of a prefix is a prefix. -/
theorem prefixes_subset {r : List (σ × α) × σ} (hr : r ∈ prefixes past s) :
    prefixes r.1 r.2 ⊆ prefixes past s := by
  induction past generalizing s with
  | nil =>
    rw [List.mem_singleton.mp hr]
    exact List.Subset.refl _
  | cons p past ih =>
    rcases List.mem_cons.mp hr with rfl | hr
    · exact List.Subset.refl _
    · exact List.subset_cons_of_subset _ (ih hr)

/-- The steps of a prefix are steps of the run. -/
theorem subset_of_mem_prefixes {r : List (σ × α) × σ} (hr : r ∈ prefixes past s) :
    r.1 ⊆ past := by
  induction past generalizing s with
  | nil =>
    rw [List.mem_singleton.mp hr]
    exact List.Subset.refl _
  | cons p past ih =>
    rcases List.mem_cons.mp hr with rfl | hr
    · exact List.Subset.refl _
    · exact List.subset_cons_of_subset _ (ih hr)

/-- The states of a prefix are states of the run. -/
theorem states_subset_of_mem_prefixes {r : List (σ × α) × σ} (hr : r ∈ prefixes past s) :
    states r.1 r.2 ⊆ states past s := by
  induction past generalizing s with
  | nil =>
    rw [List.mem_singleton.mp hr]
    exact List.Subset.refl _
  | cons p past ih =>
    rcases List.mem_cons.mp hr with rfl | hr
    · exact List.Subset.refl _
    · exact List.subset_cons_of_subset _ (ih hr)

/-! ### Scripts -/

/-- The steps that a list of actions takes, if each of them can happen in its turn. -/
def replay (next : σ → α → Option σ) (s : σ) : List α → Option (List (σ × α) × σ)
  | [] => some ([], s)
  | a :: as =>
    (next s a).bind fun s₁ ↦ (replay next s₁ as).map fun r ↦ (r.1 ++ [(s, a)], r.2)

/-- A script continues a run. -/
theorem Run.replay {next : σ → α → Option σ} {l : List α}
    (hnext : ∀ {s a s'}, next s a = some s' → step s a s') (h : Run init step past s)
    (hr : replay next s l = some (mid, s')) : Run init step (mid ++ past) s' := by
  induction l generalizing past mid s with
  | nil => cases hr; exact h
  | cons a l ih =>
    obtain ⟨s₁, hs, hr⟩ := Option.bind_eq_some_iff.mp hr
    obtain ⟨⟨rest, t⟩, hrest, heq⟩ := Option.map_eq_some_iff.mp hr
    cases heq
    rw [List.append_assoc]
    exact ih (h.step (hnext hs)) hrest

/-- A script from a start is a run. -/
theorem Run.of_replay {next : σ → α → Option σ} {l : List α}
    (hnext : ∀ {s a s'}, next s a = some s' → step s a s') (h : init s)
    (hr : Transition.replay next s l = some (past, s')) : Run init step past s' := by
  have hrun : Run init step (past ++ []) s' := Run.replay hnext (.start h) hr
  rwa [List.append_nil] at hrun

/-- The steps of a script take its actions. -/
theorem actions_of_replay {next : σ → α → Option σ} {l : List α} {steps : List (σ × α)}
    (h : replay next s l = some (steps, s')) : steps.map Prod.snd = l.reverse := by
  induction l generalizing s steps with
  | nil => cases h; rfl
  | cons a l ih =>
    obtain ⟨s₁, _, h⟩ := Option.bind_eq_some_iff.mp h
    obtain ⟨⟨rest, t⟩, hrest, heq⟩ := Option.map_eq_some_iff.mp h
    cases heq
    rw [List.map_append, ih hrest, List.reverse_cons]
    rfl

/-- A script with the steps before and behind one of its actions. -/
def replayAround (next : σ → α → Option σ) (s : σ) (before : List α) (a : α) (after : List α) :
    Option ((List (σ × α) × σ) × List (σ × α) × σ) :=
  (replay next s before).bind fun r ↦
    (next r.2 a).bind fun t ↦ (replay next t after).map fun q ↦ (r, q)

/-- A script continues a run before and behind one of its actions. -/
theorem Run.replayAround {next : σ → α → Option σ} {before after : List α} {t : σ}
    {earlier later : List (σ × α)} (hnext : ∀ {s a s'}, next s a = some s' → step s a s')
    (h : Run init step past s)
    (hr : replayAround next s before a after = some ((earlier, t), later, s')) :
    Run init step (later ++ (t, a) :: (earlier ++ past)) s' := by
  obtain ⟨r, hbefore, hr⟩ := Option.bind_eq_some_iff.mp hr
  obtain ⟨u, hu, hr⟩ := Option.bind_eq_some_iff.mp hr
  obtain ⟨q, hafter, heq⟩ := Option.map_eq_some_iff.mp hr
  cases heq
  exact ((h.replay hnext hbefore).step (hnext hu)).replay hnext hafter

end Transition
