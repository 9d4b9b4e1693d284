import JobWorker.Cascades.Success

/-!
# Manual completion against real completion

`button_set_to_done` (`job_worker/models/queue_job.py:720–729`) runs `_release_dependents`
only, while `finalize_job` and `run_now` run the child cascade before it. The two agree
exactly when the dependency counters alone already settle every job that the child
cascades would.
-/

namespace JobWorker

open Reachability

/-- The jobs of a list complete one after another, each through `finalize_job` or
`run_now`. -/
inductive CompletesEach : Store → List JobId → Store → Prop
  | nil {s : Store} : CompletesEach s [] s
  | cons {s s₁ s' : Store} {j : JobId} {js : List JobId} :
      CompletesSuccessfully s j s₁ → CompletesEach s₁ js s' → CompletesEach s (j :: js) s'

section Runs

variable {s s₁ s' : Store} {i j p : JobId} {js : List JobId} {r : Job}

/-- A run of completions keeps the wiring. -/
theorem CompletesEach.sameWiring (h : CompletesEach s js s') : s.SameWiring s' := by
  induction h with
  | nil => exact .refl _
  | cons hstep _ ih => exact hstep.sameWiring.trans ih

/-- A row that waits after a completion waited before it. -/
theorem CompletesSuccessfully.waiting_mono (h : CompletesSuccessfully s j s')
    (hw : s'.Waiting i) : s.Waiting i := by
  obtain ⟨r', hr', hw'⟩ := hw
  have hs : s'.stateOf i = some .waiting := by
    rw [Store.stateOf, hr', Option.map_some, Job.isWaiting_iff.mp hw']
  cases hr : s.get? i with
  | none => rw [h.sameWiring.none hr] at hr'; cases hr'
  | some r =>
    by_cases hi : i = j
    · subst hi
      rw [h.stateOf_self hr] at hs
      cases hs
    · exact (Store.waiting_iff hr).mpr (h.waiting_before hi hr hs).1

/-- A later completion cancels below a job only what an earlier one would have. -/
theorem CompletesSuccessfully.cancelledBelow_mono (h : CompletesSuccessfully s j s')
    (hb : s'.CancelledBelow p i) : s.CancelledBelow p i := by
  refine hb.mono (fun a hs ↦ ?_) (fun _ _ _ ↦ trivial) (fun a hn ↦ ?_) (fun a b he ↦ ?_)
  · exact ⟨h.sameWiring.childOf.mp hs.1, h.sameWiring.onError.mp hs.2⟩
  · exact ⟨h.waiting_mono hn.1, hn.2⟩
  · exact h.sameWiring.childOf.mp he

/-- A row that no longer waits keeps its state over a run of completions of other jobs. -/
theorem CompletesEach.stateOf_of_not_waiting (h : CompletesEach s js s') (hi : i ∉ js)
    (hr : s.get? i = some r) (hw : r.isWaiting = false) : s'.stateOf i = some r.state := by
  induction h generalizing r with
  | nil => rw [Store.stateOf, hr]; rfl
  | @cons s s₁ s' j js hstep _ ih =>
    rw [List.mem_cons, not_or] at hi
    have hb : ¬ s.CancelledBelow j i := fun hb ↦ by
      rw [Store.waiting_iff hr |>.mp hb.entered.1] at hw
      cases hw
    obtain ⟨now, hrow⟩ := (hstep.row hi.1 hr).2 hb
    have hsame : successRow now j r = r := by
      simp [successRow, Store.isWaitingChild, isWaitingDependent, hw]
    rw [hsame] at hrow
    exact ih hi.2 hrow hw

private theorem not_waiting_of_state {q : Job} {st : JobState} (hs : q.state = st)
    (hne : st ≠ .waiting) : q.isWaiting = false := by
  rw [Bool.eq_false_iff]
  exact fun hw ↦ hne (hs.symm.trans (Job.isWaiting_iff.mp hw))

/-- A state other than `waiting` that one completion leaves is final for the run. -/
theorem CompletesEach.stateOf_of_settled (h : CompletesEach s js s') (hi : i ∉ js)
    {st : JobState} (hs : s.stateOf i = some st) (hne : st ≠ .waiting) :
    s'.stateOf i = some st := by
  obtain ⟨q, hq, hst⟩ := Option.map_eq_some_iff.mp hs
  rw [h.stateOf_of_not_waiting hi hq (not_waiting_of_state hst hne), hst]

/-- A row that waits after one completion is released by the rest exactly when it was
released by all. -/
private theorem releasedBy_cons {r₁ : Job} (hwire : r₁.wiring = r.wiring)
    (hrel : ¬ r.ReleasedBy [j])
    (hcount : r₁.pendingDependencyCount = r.pendingDependencyCount - r.listed [j]) :
    r₁.ReleasedBy js ↔ r.ReleasedBy (j :: js) := by
  simp only [Job.ReleasedBy, Job.listed_of_wiring hwire, hcount, r.listed_cons j js] at hrel ⊢
  omega

/-- A waiting row that no completion reaches below its on_error children is settled as a
child of one of the jobs or by its counter, and otherwise still waits. -/
theorem CompletesEach.stateOf_of_waiting (h : CompletesEach s js s') (hi : i ∉ js)
    (hr : s.get? i = some r) (hw : r.isWaiting = true)
    (hb : ∀ p ∈ js, ¬ s.CancelledBelow p i) :
    ((∃ p ∈ js, r.parentId = some p) ∨ r.ReleasedBy js →
      s'.stateOf i = some (if r.runOnFailure then .cancelled else .pending)) ∧
    (¬ ((∃ p ∈ js, r.parentId = some p) ∨ r.ReleasedBy js) →
      s'.stateOf i = some .waiting) := by
  induction h generalizing r with
  | nil =>
    refine ⟨fun hno ↦ ?_, fun _ ↦ by rw [Store.stateOf, hr, ← Job.isWaiting_iff.mp hw]; rfl⟩
    rcases hno with ⟨_, hp, _⟩ | hrel
    · cases hp
    · exact absurd hrel.1 (by simp [Job.listed])
  | @cons s s₁ s' j js hstep hrest ih =>
    rw [List.mem_cons, not_or] at hi
    rcases hstep.waiting_cases hi.1 hr hw with hin | ⟨_, hset, hs⟩ | hwait
    · exact absurd hin.1 (hb j List.mem_cons_self)
    · have hne : (if r.runOnFailure then JobState.cancelled else .pending) ≠ .waiting := by
        split <;> simp
      refine ⟨fun _ ↦ hrest.stateOf_of_settled hi.2 hs hne, fun hno ↦ absurd ?_ hno⟩
      rcases hset with hp | hrel
      · exact .inl ⟨j, List.mem_cons_self, hp⟩
      · refine .inr ?_
        simp only [Job.ReleasedBy, r.listed_cons j js] at hrel ⊢
        omega
    · obtain ⟨r₁, hr₁, hw₁, hwire, hp, hrel, hcount⟩ := hwait
      have ih := ih hi.2 hr₁ hw₁ fun p hp hbelow ↦
        hb p (List.mem_cons_of_mem _ hp) (hstep.cancelledBelow_mono hbelow)
      rw [releasedBy_cons hwire hrel hcount, Job.parentId_of_wiring hwire,
        Job.runOnFailure_of_wiring hwire] at ih
      have hparent : (∃ p ∈ j :: js, r.parentId = some p) ↔ ∃ p ∈ js, r.parentId = some p := by
        simp [hp]
      rw [hparent]
      exact ih

/-- An on_error row that the counters release is cancelled by the run. -/
theorem CompletesEach.cancelled_of_released (h : CompletesEach s js s') (hi : i ∉ js)
    (hr : s.get? i = some r) (hw : r.isWaiting = true) (he : r.runOnFailure = true)
    (hrel : r.ReleasedBy js) : s'.stateOf i = some .cancelled := by
  induction h generalizing r with
  | nil => exact absurd hrel.1 (by simp [Job.listed])
  | @cons s s₁ s' j js hstep hrest ih =>
    rw [List.mem_cons, not_or] at hi
    rcases hstep.waiting_cases hi.1 hr hw with ⟨_, hs⟩ | ⟨_, _, hs⟩ | hwait
    · exact hrest.stateOf_of_settled hi.2 hs (by simp)
    · rw [if_pos he] at hs
      exact hrest.stateOf_of_settled hi.2 hs (by simp)
    · obtain ⟨r₁, hr₁, hw₁, hwire, _, hnot, hcount⟩ := hwait
      exact ih hi.2 hr₁ hw₁ ((Job.runOnFailure_of_wiring hwire).trans he)
        ((releasedBy_cons hwire hnot hcount).mpr hrel)

/-- Jobs that are all active can be completed one after another in any order. -/
theorem CompletesEach.exists (s₀ : Store) (hd : s₀.Deactivates s) (hsame : s₀.SameWiring s)
    (h : ∀ j ∈ js, ∃ r, s₀.get? j = some r ∧ r.state.isActive = true) :
    ∃ s', CompletesEach s js s' := by
  induction js generalizing s with
  | nil => exact ⟨s, .nil⟩
  | cons j js ih =>
    obtain ⟨r, hr, ha⟩ := h j List.mem_cons_self
    obtain ⟨s₁, h₁⟩ : ∃ s₁, s.write j (finalizedRow 0 none) (fun _ ↦ rfl) = .ok s₁ :=
      Store.write_isOk_iff.mpr (Store.identityKeyDuplicate_of_deactivates hd hsame hr ha)
    have hfin : finalizeJob 0 none s j = .ok (cascadeSuccessToDependents 0 s₁ j) :=
      bind_eq_ok.mpr ⟨s₁, h₁, rfl⟩
    have hstep : CompletesSuccessfully s j (cascadeSuccessToDependents 0 s₁ j) :=
      .finalizeJob hfin
    obtain ⟨s', hrest⟩ := ih (hd.trans hstep.deactivates) (hsame.trans hstep.sameWiring)
      fun k hk ↦ h k (List.mem_cons_of_mem _ hk)
    exact ⟨s', .cons hstep hrest⟩

end Runs

section Manual

variable {now : Time} {s s' : Store} {i : JobId} {self : List JobId} {r : Job}

private theorem buttonSetToDone_eq (h : buttonSetToDone now s self = .ok s') :
    ∃ s₁, s.writeEach (completedRow now .done) (fun _ ↦ rfl) self = .ok s₁ ∧
      s' = releaseDependents now s₁ self := by
  obtain ⟨s₁, h₁, h⟩ := bind_eq_ok.mp h
  cases h
  exact ⟨s₁, h₁, rfl⟩

/-- Jobs that are all active can be set to done. -/
theorem buttonSetToDone_isOk (now : Time)
    (h : ∀ j ∈ self, ∃ r, s.get? j = some r ∧ r.state.isActive = true) :
    ∃ s', buttonSetToDone now s self = .ok s' := by
  obtain ⟨s₁, h₁⟩ : ∃ s₁, s.writeEach (completedRow now .done) (fun _ ↦ rfl) self = .ok s₁ :=
    Store.writeEach_isOk (fun _ ↦ rfl) (fun _ ↦ rfl) s (.refl s) (.refl s) h
  exact ⟨_, bind_eq_ok.mpr ⟨s₁, h₁, rfl⟩⟩

/-- `button_set_to_done` keeps the wiring of the store. -/
theorem sameWiring_buttonSetToDone (h : buttonSetToDone now s self = .ok s') :
    s.SameWiring s' := by
  obtain ⟨s₁, h₁, rfl⟩ := buttonSetToDone_eq h
  exact (Store.sameColumn_writeEach h₁ fun _ ↦ rfl).trans
    (sameWiring_releaseDependents now s₁ self)

/-- `button_set_to_done` settles exactly the waiting rows that the counters release. -/
theorem stateOf_buttonSetToDone (h : buttonSetToDone now s self = .ok s') (hi : i ∉ self)
    (hr : s.get? i = some r) :
    s'.stateOf i = some (if r.isWaiting = true ∧ r.ReleasedBy self then
      (if r.runOnFailure then .cancelled else .pending) else r.state) := by
  obtain ⟨s₁, h₁, rfl⟩ := buttonSetToDone_eq h
  have hr₁ : s₁.get? i = some r := by rw [Store.get?_writeEach h₁ hi, hr]
  rw [Store.stateOf, get?_releaseDependents, hr₁, Option.map_some, Option.map_some]
  by_cases hw : r.isWaiting = true
  · obtain ⟨hrel, hnot⟩ := rowEach_releaseRow now self hw
    by_cases hc : r.ReleasedBy self
    · have hboth : r.isWaiting = true ∧ r.ReleasedBy self := ⟨hw, hc⟩
      rw [hrel hc, if_pos hboth]
    · obtain ⟨r', hr', _, hw', _⟩ := hnot hc
      rw [hr', if_neg fun hno ↦ hc hno.2, Job.isWaiting_iff.mp hw, Job.isWaiting_iff.mp hw']
  · rw [rowEach_of_not_waiting isWaiting_of_dependent self (by simpa using hw),
      if_neg fun hno ↦ hw hno.1]

/-- A waiting row that is not released has counted the completed jobs that it lists. -/
theorem row_buttonSetToDone (h : buttonSetToDone now s self = .ok s') (hi : i ∉ self)
    (hr : s.get? i = some r) (hw : r.isWaiting = true) (hn : ¬ r.ReleasedBy self) :
    ∃ r', s'.get? i = some r' ∧ r'.wiring = r.wiring ∧ r'.isWaiting = true ∧
      r'.pendingDependencyCount = r.pendingDependencyCount - r.listed self := by
  obtain ⟨s₁, h₁, rfl⟩ := buttonSetToDone_eq h
  have hr₁ : s₁.get? i = some r := by rw [Store.get?_writeEach h₁ hi, hr]
  obtain ⟨r', hr', hrest⟩ := (rowEach_releaseRow now self hw).2 hn
  refine ⟨r', ?_, hrest⟩
  rw [get?_releaseDependents, hr₁, Option.map_some, hr']

/-- The jobs set to done are done. -/
theorem stateOf_buttonSetToDone_self (h : buttonSetToDone now s self = .ok s')
    (hi : i ∈ self) (hr : s.get? i = some r) : s'.stateOf i = some .done := by
  obtain ⟨s₁, h₁, rfl⟩ := buttonSetToDone_eq h
  have hs₁ := Store.stateOf_writeEach h₁ (fun _ ↦ rfl) hi hr
  obtain ⟨r₁, hr₁, hst⟩ := Option.map_eq_some_iff.mp hs₁
  have hn : r₁.isWaiting = false := by simp [Job.isWaiting, hst]
  rw [Store.stateOf, get?_releaseDependents, hr₁, Option.map_some, Option.map_some,
    rowEach_of_not_waiting isWaiting_of_dependent self hn, hst]

end Manual

/-- After `button_set_to_done`, every other row has the state in which the completion of
the same jobs would have left it, in whatever order they had completed, and no child of
one of them waits. -/
structure ManualAgrees (s s' : Store) (js : List JobId) : Prop where
  agrees : ∀ L, L.Perm js → ∀ s'', CompletesEach s L s'' →
    ∀ i, i ∉ js → s'.stateOf i = s''.stateOf i
  noChildWaits : ∀ i r, s.get? i = some r → i ∉ js → (∃ p ∈ js, r.parentId = some p) →
    s'.stateOf i ≠ some .waiting

/-- The counters settle what the child cascades would: a waiting child of one of the jobs
is also released by its counter, and a waiting job below an on_error child of one of them
is itself an on_error barrier that is released so. -/
def Store.CountersSettle (s : Store) (self : List JobId) : Prop :=
  ∀ i r, s.get? i = some r → r.isWaiting = true → i ∉ self →
    ((∃ p ∈ self, r.parentId = some p) → r.ReleasedBy self) ∧
      ((∃ p ∈ self, s.CancelledBelow p i) → r.ReleasedBy self ∧ r.runOnFailure = true)

/-- Jobs that are not terminal can be set to done, and this agrees with their real
completion exactly when the counters settle every job that the child cascades would. -/
theorem manualAgrees_iff {s : Store} {self : List JobId}
    (hactive : ∀ j ∈ self, ∃ r, s.get? j = some r ∧ r.state.isTerminal = false) (now : Time) :
    ∃ s', buttonSetToDone now s self = .ok s' ∧
      (ManualAgrees s s' self ↔ s.CountersSettle self) := by
  have hact : ∀ j ∈ self, ∃ r, s.get? j = some r ∧ r.state.isActive = true := by
    intro j hj
    obtain ⟨r, hr, ht⟩ := hactive j hj
    exact ⟨r, hr, by simpa [JobState.isTerminal] using ht⟩
  obtain ⟨s', h'⟩ := buttonSetToDone_isOk now hact
  refine ⟨s', h', ⟨fun hagree ↦ ?_, fun hsettle ↦ ⟨?_, ?_⟩⟩⟩
  · intro i r hr hw hi
    have hstate := stateOf_buttonSetToDone h' hi hr
    refine ⟨fun hp ↦ ?_, fun ⟨p, hp, hbelow⟩ ↦ ?_⟩
    · by_contra hn
      refine hagree.noChildWaits i r hr hi hp ?_
      rw [hstate, if_neg fun hc ↦ hn hc.2, Job.isWaiting_iff.mp hw]
    · -- The order that completes `p` first cancels the row.
      have hperm : (p :: self.erase p).Perm self := (List.perm_cons_erase hp).symm
      obtain ⟨s'', h''⟩ := CompletesEach.exists s (.refl s) (.refl s)
        fun j hj ↦ hact j (hperm.mem_iff.mp hj)
      have heq := hagree.agrees _ hperm s'' h'' i hi
      have hi' : i ∉ p :: self.erase p := fun hmem ↦ hi (hperm.mem_iff.mp hmem)
      cases h'' with
      | cons hstep hrest =>
        rw [List.mem_cons, not_or] at hi'
        rw [hrest.stateOf_of_settled hi'.2 ((hstep.row hi'.1 hr).1 hbelow) (by simp),
          hstate] at heq
        by_cases hc : r.isWaiting = true ∧ r.ReleasedBy self
        · rw [if_pos hc] at heq
          refine ⟨hc.2, ?_⟩
          cases he : r.runOnFailure with
          | true => rfl
          | false => rw [he] at heq; cases heq
        · rw [if_neg hc, Job.isWaiting_iff.mp hw] at heq
          cases heq
  · intro L hperm s'' h'' i hi
    have hiL : i ∉ L := fun hmem ↦ hi (hperm.mem_iff.mp hmem)
    cases hr : s.get? i with
    | none =>
      rw [Store.stateOf, Store.stateOf, (sameWiring_buttonSetToDone h').none hr,
        h''.sameWiring.none hr]
    | some r =>
      rw [stateOf_buttonSetToDone h' hi hr]
      by_cases hw : r.isWaiting = true
      swap
      · rw [if_neg fun hc ↦ hw hc.1, h''.stateOf_of_not_waiting hiL hr (by simpa using hw)]
      obtain ⟨hchild, hbelow⟩ := hsettle i r hr hw hi
      have hrelL : r.ReleasedBy L ↔ r.ReleasedBy self := by
        rw [Job.ReleasedBy, Job.ReleasedBy, Job.listed, Job.listed, hperm.countP_eq]
      by_cases hb : ∃ p ∈ self, s.CancelledBelow p i
      · obtain ⟨hrel, he⟩ := hbelow hb
        rw [if_pos ⟨hw, hrel⟩, if_pos he,
          h''.cancelled_of_released hiL hr hw he (hrelL.mpr hrel)]
      · obtain ⟨hset, hwait⟩ := h''.stateOf_of_waiting hiL hr hw
          fun p hp hc ↦ hb ⟨p, hperm.mem_iff.mp hp, hc⟩
        by_cases hrel : r.ReleasedBy self
        · rw [if_pos ⟨hw, hrel⟩, hset (.inr (hrelL.mpr hrel))]
        · rw [if_neg fun hc ↦ hrel hc.2, hwait, Job.isWaiting_iff.mp hw]
          rintro (⟨p, hp, hc⟩ | hc)
          · exact hrel (hchild ⟨p, hperm.mem_iff.mp hp, hc⟩)
          · exact hrel (hrelL.mp hc)
  · intro i r hr hi hp
    rw [stateOf_buttonSetToDone h' hi hr]
    by_cases hw : r.isWaiting = true
    · rw [if_pos ⟨hw, (hsettle i r hr hw hi).1 hp⟩]
      split <;> simp
    · rw [if_neg fun hc ↦ hw hc.1]
      exact fun hs ↦ hw (Job.isWaiting_iff.mpr (Option.some.inj hs))

/-- A running job with an on_done child. -/
def linkBehindRunning : Store := .ofRows [
  { payload := .ping, state := .started },
  { payload := .ping, state := .waiting, parentId := some 1 }]

/-- The equivalence at a running job with an on_done child. -/
theorem manualAgrees_iff_linkBehindRunning :
    ∃ s', buttonSetToDone 0 linkBehindRunning [1] = .ok s' ∧
      (ManualAgrees linkBehindRunning s' [1] ↔ linkBehindRunning.CountersSettle [1]) := by
  refine manualAgrees_iff (fun j hj ↦ ?_) 0
  rw [List.mem_singleton] at hj
  subst hj
  exact ⟨{ payload := .ping, state := .started }, rfl, rfl⟩

/-- The child of a job that was set to done is left waiting. -/
theorem not_manualAgrees_linkBehindRunning :
    ∃ s', buttonSetToDone 0 linkBehindRunning [1] = .ok s' ∧
      ¬ ManualAgrees linkBehindRunning s' [1] := by
  have hlink : (buttonSetToDone 0 linkBehindRunning [1]).toOption.bind (·.stateOf 2) =
      some .waiting := by decide +kernel
  cases h : buttonSetToDone 0 linkBehindRunning [1] with
  | error e => rw [h] at hlink; cases hlink
  | ok s' =>
    rw [h] at hlink
    refine ⟨s', rfl, fun hagree ↦ ?_⟩
    exact hagree.noChildWaits 2 { payload := .ping, state := .waiting, parentId := some 1 }
      rfl (by decide) ⟨1, List.mem_singleton_self 1, rfl⟩ hlink

end JobWorker
