import JobWorker.Cascades.Rows

/-!
# The attempt counter of rows

Who writes `attempts`: a failure that counts adds one, `button_requeue` starts again at zero,
and no cascade and no other button touches the column
(`job_worker/models/queue_job.py:690–745,866–931`, `job_worker/cli/worker.py:1176–1297`).
-/

namespace JobWorker

open Store

/-- The exception uses up an attempt; `cli/worker.py:1185–1259`. -/
def JobException.counted : JobException → Bool
  | .exception => true
  | .retryableJobError _ ignoreRetry => !ignoreRetry
  | .transientRegistryError _ _ => false

/-- The method asks `run_now` for a retry that counts; `models/queue_job.py:907–910`. -/
def Execution.counted (run : Execution) : Bool :=
  match run.outcome with
  | .returns _ => false
  | .raises exc _ => exc.retryable?.any fun p ↦ !p.2

theorem identityKey_requeueRow (now : Time) (r : Job) :
    (requeueRow now r).identityKey = r.identityKey := rfl

/-- The records that `button_requeue` does not skip; `models/queue_job.py:690–718`. -/
def requeuedJobs (now : Time) (s : Store) : List JobId → List JobId
  | [] => []
  | job :: self =>
    if s.identityKeyDuplicate job then requeuedJobs now s self
    else match s.write job (requeueRow now) (identityKey_requeueRow now) with
      | .error _ => []
      | .ok s => job :: requeuedJobs now s self

/-- A failure that counts adds one to the counter of a row. -/
def Job.countedIf (r : Job) (counted : Bool) : Option Int :=
  if counted then some (r.attemptsRead + 1) else r.attempts

/-- Row by row, `s'` has the counters of `s`. -/
abbrev Store.SameCounters (s s' : Store) : Prop :=
  s.Rowwise (fun _ r r' ↦ r'.attempts = r.attempts) s'

/-- Row by row, `s'` has the counters of `s`, the one of `job` plus one if the failure counts. -/
abbrev Store.CountsOn (job : JobId) (counted : Bool) (s s' : Store) : Prop :=
  s.Rowwise (fun i r r' ↦ r'.attempts = r.countedIf (i == job && counted)) s'

section Counters

variable {now : Time} {s s₁ s' : Store} {self : List JobId} {job : JobId} {counted : Bool}
  {r r' : Job}

/-- A failure that does not count. -/
@[simp]
theorem Job.countedIf_false : r.countedIf false = r.attempts := rfl

/-- A failure that counts. -/
@[simp]
theorem Job.countedIf_true : r.countedIf true = some (r.attemptsRead + 1) := rfl

/-- A cascade keeps the counter. -/
theorem Cascaded.attempts (h : Cascaded now r r') : r'.attempts = r.attempts := by
  cases h <;> rfl

/-- Nothing has changed. -/
theorem Store.SameCounters.refl (s : Store) : s.SameCounters s := by
  refine rowwise_of_row (fun i r hr ↦ ⟨r, hr, rfl⟩) fun _ ↦ id

/-- Counters that stay, twice. -/
theorem Store.SameCounters.trans (h : s.SameCounters s₁) (h' : s₁.SameCounters s') :
    s.SameCounters s' :=
  Rowwise.trans (fun _ _ _ _ h h' ↦ h'.trans h) h h'

/-- A cascade keeps the counters. -/
theorem Store.CascadesTo.sameCounters (h : s.CascadesTo now s') : s.SameCounters s' :=
  h.mono fun _ _ _ ↦ Cascaded.attempts

/-- The write of a row that keeps the counter. -/
theorem sameCounters_write {f : Job → Job} {hk : ∀ r, (f r).identityKey = r.identityKey}
    (h : s.write job f hk = .ok s') (hf : ∀ r, (f r).attempts = r.attempts) :
    s.SameCounters s' :=
  rowwise_write h (fun _ _ ↦ rfl) fun r _ ↦ hf r

/-- A loop of such writes. -/
theorem sameCounters_writeEach {f : Job → Job} {hk : ∀ r, (f r).identityKey = r.identityKey}
    (h : s.writeEach f hk self = .ok s') (hf : ∀ r, (f r).attempts = r.attempts) :
    s.SameCounters s' := by
  induction self generalizing s with
  | nil => cases h; exact SameCounters.refl _
  | cons j self ih =>
    obtain ⟨s₁, h₁, h⟩ := writeEach_cons.mp h
    exact (sameCounters_write h₁ hf).trans (ih h)

/-- `button_set_to_done`. -/
theorem sameCounters_buttonSetToDone (h : buttonSetToDone now s self = .ok s') :
    s.SameCounters s' := by
  obtain ⟨s₁, h₁, h₂⟩ := bind_eq_ok.mp h
  cases h₂
  have hw : s.SameCounters s₁ := sameCounters_writeEach h₁ fun _ ↦ rfl
  exact hw.trans (cascadesTo_releaseDependents now s₁ self).sameCounters

private theorem sameCounters_failEach
    (h : self.foldlM (fun s job ↦ do
      let s ← s.write job (completedRow now .failed) fun _ ↦ rfl
      return cascadeChildrenOnParentFailure now s job) s = .ok s') : s.SameCounters s' := by
  induction self generalizing s with
  | nil => cases h; exact SameCounters.refl _
  | cons j self ih =>
    rw [List.foldlM_cons] at h
    obtain ⟨s₂, h₂, h⟩ := bind_eq_ok.mp h
    obtain ⟨s₁, h₁, h₂⟩ := bind_eq_ok.mp h₂
    cases h₂
    have hw : s.SameCounters s₁ := sameCounters_write h₁ fun _ ↦ rfl
    have hc := (cascadesTo_cascadeChildrenOnParentFailure now s₁ j).sameCounters
    exact (hw.trans hc).trans (ih h)

/-- `button_set_to_failed`. -/
theorem sameCounters_buttonSetToFailed (h : buttonSetToFailed now s self = .ok s') :
    s.SameCounters s' := by
  obtain ⟨s₁, h₁, h₂⟩ := bind_eq_ok.mp h
  cases h₂
  exact (sameCounters_failEach h₁).trans (cascadesTo_failDependents now s₁ self).sameCounters

/-- `button_cancelled`. -/
theorem sameCounters_buttonCancelled
    (h : Fuel.Computes (fun fuel ↦ buttonCancelled now fuel s self) (.ok s')) :
    s.SameCounters s' := by
  obtain ⟨s₁, h₁, hc⟩ := (allowsCancellation_cascaded now).buttonCancelled h
  have hw : s.SameCounters s₁ := sameCounters_writeEach h₁ fun _ ↦ rfl
  exact hw.trans (CascadesTo.sameCounters hc)

/-- `button_requeue` starts the counters of the records that it does not skip again. -/
theorem rowwise_buttonRequeue (h : buttonRequeue now s self = .ok s') :
    s.Rowwise (fun i r r' ↦
      r'.attempts = if i ∈ requeuedJobs now s self then some 0 else r.attempts) s' := by
  induction self generalizing s with
  | nil => cases h; exact .refl (fun _ _ ↦ (if_neg List.not_mem_nil).symm) _
  | cons j self ih =>
    rw [buttonRequeue] at h
    rw [requeuedJobs]
    split at h
    · next hskip =>
      rw [if_pos hskip]
      exact ih h
    · next hskip =>
      obtain ⟨s₁, h₁, h⟩ := bind_eq_ok.mp h
      rw [if_neg hskip, h₁]
      dsimp only
      have hrow : ∀ i r, s.get? i = some r → ∃ r₁, s₁.get? i = some r₁ ∧
          r₁.attempts = if i = j then some 0 else r.attempts := by
        intro i r hr
        rw [get?_write h₁, hr]
        split
        · exact ⟨_, rfl, rfl⟩
        · exact ⟨_, rfl, rfl⟩
      have hrest := ih h
      refine rowwise_of_row (fun i r hr ↦ ?_) fun i hr ↦ hrest.none ?_
      · obtain ⟨r₁, hr₁, hfirst⟩ := hrow i r hr
        obtain ⟨r', hr', hlast⟩ := hrest.row hr₁
        refine ⟨r', hr', ?_⟩
        rw [hlast, hfirst]
        by_cases hi : i = j <;> simp [hi]
      · rw [get?_write h₁, hr]
        split <;> rfl

/-- The write of a row whose failure may count, with a cascade behind it. -/
theorem countsOn_write {f : Job → Job} {hk : ∀ r, (f r).identityKey = r.identityKey}
    (h : s.write job f hk = .ok s₁)
    (hf : ∀ r, s.get? job = some r → (f r).attempts = r.countedIf counted)
    (hc : s₁.SameCounters s') : s.CountsOn job counted s' := by
  refine rowwise_of_row (fun i r hr ↦ ?_) fun i hr ↦ hc.none ?_
  · have hrow := get?_write h i
    rw [hr] at hrow
    by_cases hi : i = job
    · subst hi
      rw [if_pos rfl] at hrow
      obtain ⟨r', hr', hsame⟩ := hc.row hrow
      refine ⟨r', hr', ?_⟩
      rw [beq_self_eq_true, Bool.true_and]
      exact hsame.trans (hf r hr)
    · rw [if_neg hi] at hrow
      obtain ⟨r', hr', hsame⟩ := hc.row hrow
      refine ⟨r', hr', ?_⟩
      rw [beq_false_of_ne hi, Bool.false_and]
      exact hsame
  · rw [get?_write h, hr]
    split <;> rfl

/-- One round of `run_now`. -/
theorem countsOn_runJob {run : Execution} {raised : Bool}
    (h : runJob run s job = .ok (s', raised)) : s.CountsOn job run.counted s' := by
  have heffect := runEffect h
  generalize ho : (s', raised) = out at heffect
  cases heffect with
  | returned hreturns hw =>
    cases ho
    have hn : run.counted = false := by rw [Execution.counted, hreturns]
    rw [hn]
    exact countsOn_write hw (fun _ _ ↦ rfl)
      (cascadesTo_cascadeSuccessToDependents run.finish _ job).sameCounters
  | @postponed exc traceback seconds ignoreRetry s₁ hraises hretry hw =>
    cases ho
    have hn : run.counted = !ignoreRetry := by
      rw [Execution.counted, hraises]
      simp [hretry]
    rw [hn]
    refine countsOn_write hw (fun r _ ↦ ?_) (SameCounters.refl _)
    cases ignoreRetry <;> rfl
  | crashed hraises hretry hw =>
    cases ho
    have hn : run.counted = false := by
      rw [Execution.counted, hraises]
      simp [hretry]
    rw [hn]
    exact countsOn_write hw (fun _ _ ↦ rfl)
      (cascadesTo_cascadeFailureToDependents run.finish _ job).sameCounters

/-- The counter of a handled row. -/
theorem attempts_handledRow (cfg : WorkerConfig) (exc : JobException) (traceback : String) :
    (handledRow now traceback (dispositionOf cfg now exc r) r).attempts =
      r.countedIf exc.counted := by
  cases exc with
  | transientRegistryError seconds ignoreRetry =>
    rw [dispositionOf]
    split <;> rfl
  | retryableJobError seconds ignoreRetry => cases ignoreRetry <;> rfl
  | exception =>
    rw [dispositionOf]
    split <;> rfl

/-- `handle_exception`. -/
theorem countsOn_handleException {cfg : WorkerConfig} {exc : JobException} {traceback : String}
    (h : handleException cfg now exc traceback s job = .ok s') (hr : s.get? job = some r) :
    s.CountsOn job exc.counted s' := by
  obtain ⟨s₁, hw, hc⟩ := cascadesTo_handleException h hr
  refine countsOn_write hw (fun q hq ↦ ?_) hc.sameCounters
  obtain rfl : r = q := Option.some.inj (hr.symm.trans hq)
  exact attempts_handledRow cfg exc traceback

end Counters

end JobWorker
