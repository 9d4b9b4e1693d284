import JobWorker.Cascades.Cancellation
import JobWorker.Cascades.Failure
import JobWorker.Cli.Worker
import Mathlib.Order.Defs.Unbundled

/-!
# What a cascade does to one row

Whatever a cascade decides, it rewrites rows that wait, in five columns, and starts or
completes none (`job_worker/models/queue_job.py:551–688,743–803`,
`job_worker/cli/worker.py:712–738`). A button writes its own records besides.
-/

namespace JobWorker

open Relational

/-- The columns that stay as `enqueue` has written them; `models/queue_job.py:1002–1036`. -/
structure Terms where
  payload : Payload
  priority : Int
  channel : Option String
  maxRetries : Option Int
  timeout : Int
  graphUuid : Option Nat
  wiring : Wiring
  name : Option String
  userId : Option Nat
  companyId : Option Nat
  createDate : Time
  deriving DecidableEq

/-- The lasting columns of a row. -/
def Job.terms (r : Job) : Terms where
  payload := r.payload
  priority := r.priority
  channel := r.channel
  maxRetries := r.maxRetries
  timeout := r.timeout
  graphUuid := r.graphUuid
  wiring := r.wiring
  name := r.name
  userId := r.userId
  companyId := r.companyId
  createDate := r.createDate

/-- What a cascade leaves of a row: the row itself, or of one that waits another that no
worker has executed. -/
inductive Cascaded (now : Time) (r : Job) : Job → Prop
  | kept : Cascaded now r r
  | written {state : JobState} (count : Int) (excInfo : Option String)
      (cancelledAt : Option Time) : r.isWaiting = true → state ≠ .started → state ≠ .done →
      Cascaded now r { r with
        state := state
        pendingDependencyCount := count
        excInfo := excInfo
        cancelledAt := cancelledAt
        writeDate := now }

/-- What the write of a state other than `started` and `waiting` leaves of a row. -/
structure Rewritten (now : Time) (r r' : Job) : Prop where
  terms : r'.terms = r.terms
  notStarted : r'.state ≠ .started
  notWaiting : r'.isWaiting = false
  writeDate : r'.writeDate = now

/-- What a call on the records `self` leaves of row `i`. -/
inductive Written (now : Time) (self : List JobId) (i : JobId) (r r' : Job) : Prop
  | cascaded : Cascaded now r r' → Written now self i r r'
  | rewritten : i ∈ self → Rewritten now r r' → Written now self i r r'

section Row

variable {now : Time} {self : List JobId} {i : JobId} {r r' r'' : Job}

/-- A cascade keeps the lasting columns. -/
theorem Cascaded.terms (h : Cascaded now r r') : r'.terms = r.terms := by
  cases h <;> rfl

/-- A row that does not wait is left. -/
theorem Cascaded.eq (h : Cascaded now r r') (hw : r.isWaiting = false) : r' = r := by
  cases h with
  | kept => rfl
  | written _ _ _ hw' => rw [hw] at hw'; cases hw'

/-- A row that waits behind a cascade waited before. -/
theorem Cascaded.isWaiting (h : Cascaded now r r') (hw : r'.isWaiting = true) :
    r.isWaiting = true := by
  cases h with
  | kept => exact hw
  | written _ _ _ hr => exact hr

/-- Two cascades one after the other. -/
theorem Cascaded.trans (h : Cascaded now r r') (h' : Cascaded now r' r'') :
    Cascaded now r r'' := by
  cases h with
  | kept => exact h'
  | written count excInfo cancelledAt hw hs hd =>
    cases h' with
    | kept => exact .written count excInfo cancelledAt hw hs hd
    | written count excInfo cancelledAt _ hs hd =>
      exact .written count excInfo cancelledAt hw hs hd

/-- Two statements of a call, one after the other. -/
theorem Written.trans (h : Written now self i r r') (h' : Written now self i r' r'') :
    Written now self i r r'' := by
  cases h with
  | cascaded hc =>
    cases h' with
    | cascaded hc' => exact .cascaded (hc.trans hc')
    | rewritten hi hw => exact .rewritten hi { hw with terms := hw.terms.trans hc.terms }
  | rewritten hi hw =>
    cases h' with
    | cascaded hc' => exact .rewritten hi (hc'.eq hw.notWaiting ▸ hw)
    | rewritten _ hw' => exact .rewritten hi { hw' with terms := hw'.terms.trans hw.terms }

end Row

namespace Store

/-- Row by row, `s'` comes from `s` by `R`; no row appears or vanishes. -/
def Rowwise (R : JobId → Job → Job → Prop) (s s' : Store) : Prop :=
  ∀ i, Option.Rel (R i) (s.get? i) (s'.get? i)

/-- Row by row, `s'` comes from `s` by a cascade. -/
abbrev CascadesTo (now : Time) (s s' : Store) : Prop := s.Rowwise (fun _ ↦ Cascaded now) s'

section Rowwise

variable {R R' : JobId → Job → Job → Prop} {s s' s'' : Store} {i : JobId} {r r' : Job}

/-- A row before. -/
theorem Rowwise.row (h : s.Rowwise R s') (hr : s.get? i = some r) :
    ∃ r', s'.get? i = some r' ∧ R i r r' := by
  have hi := h i
  rw [hr] at hi
  generalize s'.get? i = o at hi
  cases hi with
  | some hrel => exact ⟨_, rfl, hrel⟩

/-- A row behind. -/
theorem Rowwise.row_before (h : s.Rowwise R s') (hr : s'.get? i = some r') :
    ∃ r, s.get? i = some r ∧ R i r r' := by
  have hi := h i
  rw [hr] at hi
  generalize s.get? i = o at hi
  cases hi with
  | some hrel => exact ⟨_, rfl, hrel⟩

/-- No row appears. -/
theorem Rowwise.none (h : s.Rowwise R s') (hr : s.get? i = none) : s'.get? i = none := by
  have hi := h i
  rw [hr] at hi
  generalize s'.get? i = o at hi
  cases hi with
  | none => rfl

/-- A store whose rows are all related. -/
theorem rowwise_of_row (hrow : ∀ i r, s.get? i = some r → ∃ r', s'.get? i = some r' ∧ R i r r')
    (hnone : ∀ i, s.get? i = none → s'.get? i = none) : s.Rowwise R s' := by
  intro i
  cases hr : s.get? i with
  | none => rw [hnone i hr]; exact .none
  | some r =>
    obtain ⟨r', hr', hrel⟩ := hrow i r hr
    rw [hr']
    exact .some hrel

/-- A weaker relation. -/
theorem Rowwise.mono (h : s.Rowwise R s') (hR : ∀ i r r', R i r r' → R' i r r') :
    s.Rowwise R' s' := by
  refine rowwise_of_row (fun i r hr ↦ ?_) fun i ↦ h.none
  obtain ⟨r', hr', hrel⟩ := h.row hr
  exact ⟨r', hr', hR i r r' hrel⟩

/-- Nothing has changed. -/
theorem Rowwise.refl (hR : ∀ i r, R i r r) (s : Store) : s.Rowwise R s :=
  rowwise_of_row (fun i r hr ↦ ⟨r, hr, hR i r⟩) fun _ ↦ id

/-- Two calls one after the other. -/
theorem Rowwise.trans (hR : ∀ i a b c, R i a b → R i b c → R i a c) (h : s.Rowwise R s')
    (h' : s'.Rowwise R s'') : s.Rowwise R s'' := by
  refine rowwise_of_row (fun i r hr ↦ ?_) fun i hr ↦ h'.none (h.none hr)
  obtain ⟨r', hr', hrel⟩ := h.row hr
  obtain ⟨r'', hr'', hrel'⟩ := h'.row hr'
  exact ⟨r'', hr'', hR i r r' r'' hrel hrel'⟩

/-- A statement on one row after another. -/
theorem rowwise_update {p : JobId → Job → Bool} {f : JobId → Job → Job} (hk : s.Keeps p f)
    (hR : ∀ i r, R i r r)
    (hf : ∀ i r, s.get? i = some r → p i r = true → R i r (f i r)) :
    s.Rowwise R (s.update p f hk) := by
  refine rowwise_of_row (fun i r hr ↦ ⟨_, by rw [get?_update, hr, Option.map_some], ?_⟩)
    fun i hr ↦ by rw [get?_update, hr, Option.map_none]
  split
  · next hp => exact hf i r hr hp
  · exact hR i r

/-- An ORM write of one row. -/
theorem rowwise_write {j : JobId} {f : Job → Job}
    {hk : ∀ r, (f r).identityKey = r.identityKey} (h : s.write j f hk = .ok s')
    (hR : ∀ i r, R i r r) (hf : ∀ r, s.get? j = some r → R j r (f r)) : s.Rowwise R s' := by
  refine rowwise_of_row (fun i r hr ↦ ?_) fun i hr ↦ by
    rw [get?_write h, hr, Option.map_none, ite_self]
  rw [get?_write h]
  split
  · next hi =>
    subst hi
    exact ⟨f r, by rw [hr, Option.map_some], hf r hr⟩
  · exact ⟨r, hr, hR i r⟩

end Rowwise

end Store

open Store

/-! ### Cascades under a relation on rows -/

section Preorder

variable {now : Time} {R : Job → Job → Prop} {s s' s'' s₀ : Store} {self queue : List JobId}
  {job : JobId}

/-- What a relation must allow of a cancellation: the statement on a waiting row, the write of
a row that waited when the cascade began, and no new waiting row. -/
structure AllowsCancellation (now : Time) (R : Job → Job → Prop) : Prop where
  statement : ∀ r, r.isWaiting = true → R r (cancelledByStatementRow now r)
  queued : ∀ r₀ r, r₀.isWaiting = true → R r₀ r → R r₀ (cancelledRow now r)
  waiting : ∀ r₀ r, R r₀ r → r.isWaiting = true → r₀.isWaiting = true

/-- A job that waits behind a cascade waited before. -/
theorem AllowsCancellation.waitedBefore (hR : AllowsCancellation now R) {i : JobId}
    (h : s.Rowwise (fun _ ↦ R) s') (hw : s'.Waiting i) : s.Waiting i := by
  obtain ⟨r', hr', hw'⟩ := hw
  obtain ⟨r, hr, hc⟩ := h.row_before hr'
  exact ⟨r, hr, hR.waiting r r' hc hw'⟩

/-- A job of the queue waited when the cascade began. -/
theorem AllowsCancellation.cancelQueued (hR : AllowsCancellation now R)
    (h : s₀.Rowwise (fun _ ↦ R) s) (hj : s₀.Waiting job) :
    s₀.Rowwise (fun _ ↦ R) (s.cancelQueued now job) := by
  refine rowwise_of_row (fun i r hr ↦ ?_) fun i hr ↦ ?_
  · obtain ⟨r', hr', hc⟩ := h.row hr
    refine ⟨_, (get?_update _ _ _ _ i).trans (by rw [hr', Option.map_some]), ?_⟩
    split
    · next hi =>
      rw [beq_iff_eq] at hi
      subst hi
      exact hR.queued r r' ((waiting_iff hr).mp hj) hc
    · exact hc
  · exact (get?_update _ _ _ _ i).trans (by rw [h.none hr, Option.map_none])

/-- With some fuel the three functions of the cancellation cascade row by row. -/
private structure CancelsRows (now : Time) (R : Job → Job → Prop) (fuel : Nat) : Prop where
  dependents : ∀ s₀ s s' : Store, ∀ self, s₀.Rowwise (fun _ ↦ R) s →
    cancelDependents now fuel s self = some s' → s₀.Rowwise (fun _ ↦ R) s'
  children : ∀ s₀ s s' : Store, ∀ job, s₀.Rowwise (fun _ ↦ R) s →
    cascadeChildrenOnParentCancelled now fuel s job = some s' → s₀.Rowwise (fun _ ↦ R) s'
  queue : ∀ s₀ s s' : Store, ∀ queue, s₀.Rowwise (fun _ ↦ R) s →
    (∀ q ∈ queue, s₀.Waiting q) → cancelQueue now fuel s queue = some s' →
      s₀.Rowwise (fun _ ↦ R) s'

private theorem CancelsRows.foldlM {fuel : Nat} (ih : CancelsRows now R fuel)
    {jobs : List JobId} (h : s₀.Rowwise (fun _ ↦ R) s)
    (hs : jobs.foldlM (fun s job ↦ cascadeChildrenOnParentCancelled now fuel s job) s = some s') :
    s₀.Rowwise (fun _ ↦ R) s' := by
  induction jobs generalizing s with
  | nil => cases hs; exact h
  | cons job jobs ihj =>
    rw [List.foldlM_cons] at hs
    obtain ⟨s₁, h₁, hs⟩ := Option.bind_eq_some_iff.mp hs
    exact ihj (ih.children _ _ _ job h h₁) hs

variable [IsPreorder Job R]

/-- The empty cascade. -/
theorem Store.Rowwise.same (s : Store) : s.Rowwise (fun _ ↦ R) s := .refl (fun _ ↦ refl_of R) s

/-- Two cascades one after the other. -/
theorem Store.Rowwise.then (h : s.Rowwise (fun _ ↦ R) s') (h' : s'.Rowwise (fun _ ↦ R) s'') :
    s.Rowwise (fun _ ↦ R) s'' := h.trans (fun _ _ _ _ ↦ trans_of R) h'

/-- A statement of a cascade. -/
theorem Store.rowwise_statement {p : JobId → Job → Bool} {f : JobId → Job → Job}
    (hk : s.Keeps p f) (hf : ∀ i r, p i r = true → R r (f i r)) :
    s.Rowwise (fun _ ↦ R) (s.update p f hk) :=
  rowwise_update hk (fun _ ↦ refl_of R) fun i r _ ↦ hf i r

/-- A loop of writes. -/
theorem Store.rowwise_writeEach {f : Job → Job} {hk : ∀ r, (f r).identityKey = r.identityKey}
    (h : s.writeEach f hk self = .ok s') (hf : ∀ r, R r (f r)) : s.Rowwise (fun _ ↦ R) s' := by
  induction self generalizing s with
  | nil => cases h; exact .same _
  | cons j self ih =>
    obtain ⟨s₁, h₁, h⟩ := writeEach_cons.mp h
    exact Rowwise.then (rowwise_write h₁ (fun _ ↦ refl_of R) fun r _ ↦ hf r) (ih h)

/-- A walk over children. -/
theorem Store.rowwise_walk {rule : ChildRule}
    (hrule : ∀ q r, r.isWaiting = true → R r (rule.write q r)) (s : Store)
    (queue : List JobId) : s.Rowwise (fun _ ↦ R) (s.walk rule queue) := by
  induction s, queue using walk.induct rule with
  | case1 s => rw [walk]; exact .same s
  | case2 s job queue ih =>
    rw [walk]
    refine Rowwise.then (rowwise_statement _ fun _ r hp ↦ ?_) ih
    exact hrule job r (isWaitingChild_iff.mp hp).2

/-- A loop of statements over dependents. -/
theorem Store.rowwise_updateEach {p : JobId → Job → Bool} {f : JobId → Job → Job}
    (hp : ∀ j r, p j r = true → r.isWaiting = true) (hwire : ∀ j r, (f j r).wiring = r.wiring)
    (hf : ∀ j r, r.isWaiting = true → R r (f j r)) (s : Store) (self : List JobId) :
    s.Rowwise (fun _ ↦ R) (s.updateEach p f hp hwire self) := by
  induction self generalizing s with
  | nil => exact .same s
  | cons j self ih =>
    exact Rowwise.then (rowwise_statement _ fun _ r hr ↦ hf j r (hp j r hr)) (ih _)

/-- `_release_dependents`. -/
theorem rowwise_releaseDependents (hrelease : ∀ r, r.isWaiting = true → R r (releaseRow now r))
    (s : Store) (self : List JobId) :
    s.Rowwise (fun _ ↦ R) (releaseDependents now s self) :=
  rowwise_updateEach _ _ (fun _ ↦ hrelease) s self

/-- `_fail_dependents`. -/
theorem rowwise_failDependents (hfail : ∀ q r, r.isWaiting = true → R r (failRow now q r))
    (s : Store) (self : List JobId) : s.Rowwise (fun _ ↦ R) (failDependents now s self) :=
  rowwise_updateEach _ _ hfail s self

/-- `_cascade_children_on_parent_failure`. -/
theorem rowwise_cascadeChildrenOnParentFailure
    (hwalk : ∀ q r, r.isWaiting = true → R r ((failureRule now).write q r)) (s : Store)
    (job : JobId) : s.Rowwise (fun _ ↦ R) (cascadeChildrenOnParentFailure now s job) := by
  rw [cascadeChildrenOnParentFailure_eq_walk]
  exact rowwise_walk hwalk s [job]

/-- Both success cascades. -/
theorem rowwise_cascadeSuccessToDependents
    (hsuccess : ∀ q r, r.isWaiting = true → R r ((successRule now).write q r))
    (hcancel : ∀ q r, r.isWaiting = true → R r ((cancelRule now).write q r))
    (hrelease : ∀ r, r.isWaiting = true → R r (releaseRow now r)) (s : Store) (job : JobId) :
    s.Rowwise (fun _ ↦ R) (cascadeSuccessToDependents now s job) := by
  refine Rowwise.then (Rowwise.then ?_ (rowwise_walk hcancel _ _))
    (rowwise_releaseDependents hrelease _ [job])
  exact rowwise_statement _ fun _ r hp ↦ hsuccess job r (isWaitingChild_iff.mp hp).2

/-- The raw-SQL failure cascade. -/
theorem rowwise_cascadeWorkerDied
    (hfail : ∀ q r, r.isWaiting = true → R r (workerDiedDependentRow now q r)) (s : Store)
    (job : JobId) : s.Rowwise (fun _ ↦ R) (cascadeWorkerDied now s job) := by
  unfold cascadeWorkerDied
  refine Rowwise.then (rowwise_statement _ fun _ r hp ↦ ?_) (rowwise_statement _ fun _ r hp ↦ ?_)
  · exact hfail job r (isWaitingChild_iff.mp hp).2
  · exact hfail job r (isWaiting_of_dependent job r hp)

/-- The statements of `_cancel_dependents`. -/
theorem AllowsCancellation.cancelStatements (hR : AllowsCancellation now R) (s : Store)
    (self : List JobId) : s.Rowwise (fun _ ↦ R) (s.cancelStatements now self).1 := by
  induction self generalizing s with
  | nil => exact .same s
  | cons job self ih =>
    refine Rowwise.then (rowwise_statement _ fun _ r hp ↦ ?_) (ih _)
    exact hR.statement r (isWaiting_of_dependent job r hp)

private theorem cancelsRows (hR : AllowsCancellation now R) (fuel : Nat) :
    CancelsRows now R fuel := by
  induction fuel with
  | zero => exact ⟨by simp [cancelDependents], by simp [cascadeChildrenOnParentCancelled],
      by simp [cancelQueue]⟩
  | succ fuel ih =>
    refine ⟨fun s₀ s s' self h hs ↦ ?_, fun s₀ s s' job h hs ↦ ?_, fun s₀ s s' queue h hq hs ↦ ?_⟩
    · have h₁ := h.then (hR.cancelStatements s self)
      rw [cancelDependents] at hs
      dsimp only at hs
      split at hs
      · cases hs
        exact h₁
      · obtain ⟨s₂, h₂, hs⟩ := Option.bind_eq_some_iff.mp hs
        exact ih.dependents _ _ _ _ (ih.foldlM h₁ h₂) hs
    · rw [cascadeChildrenOnParentCancelled] at hs
      refine ih.queue _ _ _ _ h (fun q hq ↦ ?_) hs
      exact hR.waitedBefore h (mem_waitingChildren.mp hq).1
    · cases queue with
      | nil =>
        rw [cancelQueue] at hs
        cases hs
        exact h
      | cons job queue =>
        rw [cancelQueue] at hs
        obtain ⟨s₂, h₂, hs⟩ := Option.bind_eq_some_iff.mp hs
        have h₁ := hR.cancelQueued h (hq job List.mem_cons_self)
        refine ih.queue _ _ _ _ (ih.dependents _ _ _ _ h₁ h₂) (fun q hmem ↦ ?_) hs
        rcases List.mem_append.mp hmem with hmem | hmem
        · exact hq q (List.mem_cons_of_mem _ hmem)
        · exact hR.waitedBefore h₁ (mem_waitingChildren.mp hmem).1

/-- `button_cancelled`: writes of its records, and the cancellation cascade behind them. -/
theorem AllowsCancellation.buttonCancelled (hR : AllowsCancellation now R)
    (h : Fuel.Computes (fun fuel ↦ JobWorker.buttonCancelled now fuel s self) (.ok s')) :
    ∃ s₁, s.writeEach (cancelledRow now) (fun _ ↦ rfl) self = .ok s₁ ∧
      s₁.Rowwise (fun _ ↦ R) s' := by
  obtain ⟨fuel, hfuel⟩ := h
  have h := hfuel fuel (Nat.le_refl fuel)
  unfold JobWorker.buttonCancelled at h
  dsimp only at h
  split at h
  · cases h
  · next s₁ h₁ =>
    obtain ⟨s₂, h₂, h⟩ := Option.bind_eq_some_iff.mp h
    obtain ⟨s₃, h₃, h⟩ := Option.bind_eq_some_iff.mp h
    cases h
    have hwalks := (cancelsRows hR fuel).foldlM (.same s₁) h₂
    exact ⟨s₁, h₁, (cancelsRows hR fuel).dependents _ _ _ _ hwalks h₃⟩

end Preorder

/-! ### Cascaded rows -/

instance (now : Time) : IsPreorder Job (Cascaded now) where
  refl _ := .kept
  trans _ _ _ := Cascaded.trans

section Cascades

variable {now : Time} {r : Job} {s s' : Store} {self : List JobId} {job : JobId}

/-- The empty cascade. -/
theorem Store.CascadesTo.refl (s : Store) : s.CascadesTo now s := .same s

/-- Two cascades one after the other. -/
theorem Store.CascadesTo.trans {s'' : Store} (h : s.CascadesTo now s')
    (h' : s'.CascadesTo now s'') : s.CascadesTo now s'' := h.then h'

/-- The failure walk writes rows that wait. -/
theorem cascaded_failureRule (q : JobId) (hw : r.isWaiting = true) :
    Cascaded now r ((failureRule now).write q r) := by
  simp only [failureRule]
  split
  · exact .written _ _ _ hw (by simp) (by simp)
  · exact .written _ _ _ hw (by simp) (by simp)

/-- The success walk writes rows that wait. -/
theorem cascaded_successRule (q : JobId) (hw : r.isWaiting = true) :
    Cascaded now r ((successRule now).write q r) := by
  simp only [successRule]
  split
  · exact .written _ _ _ hw (by simp) (by simp)
  · exact .written _ _ _ hw (by simp) (by simp)

/-- The release of a dependent. -/
theorem cascaded_releaseRow (hw : r.isWaiting = true) : Cascaded now r (releaseRow now r) := by
  have hs := Job.isWaiting_iff.mp hw
  refine .written _ _ _ hw ?_ ?_ <;> split <;> (try split) <;> simp [hs]

/-- The failure of a dependent. -/
theorem cascaded_failRow (q : JobId) (hw : r.isWaiting = true) :
    Cascaded now r (failRow now q r) := by
  refine .written _ _ _ hw ?_ ?_ <;> split <;> simp

/-- The raw-SQL failure of a child or dependent. -/
theorem cascaded_workerDiedDependentRow (q : JobId) (hw : r.isWaiting = true) :
    Cascaded now r (workerDiedDependentRow now q r) := by
  refine .written _ _ _ hw ?_ ?_ <;> split <;> simp

/-- A cancellation is a cascade. -/
theorem allowsCancellation_cascaded (now : Time) : AllowsCancellation now (Cascaded now) where
  statement r hw := .written _ _ _ hw (by simp) (by simp)
  queued r₀ r hw hc := by
    cases hc with
    | kept => exact .written _ _ _ hw (by simp) (by simp)
    | written count excInfo => exact .written count excInfo _ hw (by simp) (by simp)
  waiting _ _ hc hw := hc.isWaiting hw

/-- `_release_dependents` is a cascade. -/
theorem cascadesTo_releaseDependents (now : Time) (s : Store) (self : List JobId) :
    s.CascadesTo now (releaseDependents now s self) :=
  rowwise_releaseDependents (fun _ ↦ cascaded_releaseRow) s self

/-- `_fail_dependents` is a cascade. -/
theorem cascadesTo_failDependents (now : Time) (s : Store) (self : List JobId) :
    s.CascadesTo now (failDependents now s self) :=
  rowwise_failDependents (fun q _ ↦ cascaded_failRow q) s self

/-- `_cascade_children_on_parent_failure` is a cascade. -/
theorem cascadesTo_cascadeChildrenOnParentFailure (now : Time) (s : Store) (job : JobId) :
    s.CascadesTo now (cascadeChildrenOnParentFailure now s job) :=
  rowwise_cascadeChildrenOnParentFailure (fun q _ ↦ cascaded_failureRule q) s job

/-- Both success cascades. -/
theorem cascadesTo_cascadeSuccessToDependents (now : Time) (s : Store) (job : JobId) :
    s.CascadesTo now (cascadeSuccessToDependents now s job) :=
  rowwise_cascadeSuccessToDependents (fun q _ ↦ cascaded_successRule q)
    (fun _ _ hw ↦ .written _ _ _ hw (by simp) (by simp)) (fun _ ↦ cascaded_releaseRow) s job

/-- Both failure cascades. -/
theorem cascadesTo_cascadeFailureToDependents (now : Time) (s : Store) (job : JobId) :
    s.CascadesTo now (cascadeFailureToDependents now s job) :=
  (cascadesTo_cascadeChildrenOnParentFailure now s job).trans
    (cascadesTo_failDependents now _ [job])

/-- The raw-SQL failure cascade. -/
theorem cascadesTo_cascadeWorkerDied (now : Time) (s : Store) (job : JobId) :
    s.CascadesTo now (cascadeWorkerDied now s job) :=
  rowwise_cascadeWorkerDied (fun q _ ↦ cascaded_workerDiedDependentRow q) s job

end Cascades

/-! ### Calls on records -/

/-- Row by row, `s'` comes from `s` by a call on the records `self`. -/
abbrev Store.WritesTo (now : Time) (self : List JobId) (s s' : Store) : Prop :=
  s.Rowwise (Written now self) s'

section Calls

variable {now : Time} {s s' : Store} {self all : List JobId} {job : JobId}

/-- Two parts of a call. -/
theorem Store.WritesTo.trans {s'' : Store} (h : s.WritesTo now self s')
    (h' : s'.WritesTo now self s'') : s.WritesTo now self s'' :=
  Rowwise.trans (fun _ _ _ _ ↦ Written.trans) h h'

/-- A cascade within a call. -/
theorem Store.CascadesTo.written (h : s.CascadesTo now s') : s.WritesTo now self s' :=
  h.mono fun _ _ _ ↦ .cascaded

/-- The write of a state on one of the records. -/
theorem written_write {f : Job → Job} {hk : ∀ r, (f r).identityKey = r.identityKey}
    (h : s.write job f hk = .ok s') (hj : job ∈ self) (hf : ∀ r, Rewritten now r (f r)) :
    s.WritesTo now self s' :=
  rowwise_write h (fun _ _ ↦ .cascaded .kept) fun r _ ↦ .rewritten hj (hf r)

/-- A loop of writes. -/
theorem written_writeEach {f : Job → Job} {hk : ∀ r, (f r).identityKey = r.identityKey}
    (h : s.writeEach f hk self = .ok s') (hmem : ∀ j ∈ self, j ∈ all)
    (hf : ∀ r, Rewritten now r (f r)) : s.WritesTo now all s' := by
  induction self generalizing s with
  | nil => cases h; exact (CascadesTo.refl _).written
  | cons j self ih =>
    obtain ⟨s₁, h₁, h⟩ := writeEach_cons.mp h
    have hw := written_write h₁ (hmem j List.mem_cons_self) hf
    exact hw.trans (ih h fun k hk ↦ hmem k (List.mem_cons_of_mem _ hk))

/-- `button_set_to_done`. -/
theorem written_buttonSetToDone (h : buttonSetToDone now s self = .ok s') :
    s.WritesTo now self s' := by
  obtain ⟨s₁, h₁, h₂⟩ := bind_eq_ok.mp h
  cases h₂
  have hw : s.WritesTo now self s₁ := written_writeEach h₁ (fun _ ↦ id)
    fun _ ↦ ⟨rfl, by simp [completedRow], rfl, rfl⟩
  exact hw.trans (cascadesTo_releaseDependents now s₁ self).written

private theorem written_failEach (hmem : ∀ j ∈ self, j ∈ all)
    (h : self.foldlM (fun s job ↦ do
      let s ← s.write job (completedRow now .failed) fun _ ↦ rfl
      return cascadeChildrenOnParentFailure now s job) s = .ok s') : s.WritesTo now all s' := by
  induction self generalizing s with
  | nil => cases h; exact (CascadesTo.refl _).written
  | cons j self ih =>
    rw [List.foldlM_cons] at h
    obtain ⟨s₂, h₂, h⟩ := bind_eq_ok.mp h
    obtain ⟨s₁, h₁, h₂⟩ := bind_eq_ok.mp h₂
    cases h₂
    have hw := written_write h₁ (hmem j List.mem_cons_self)
      fun _ ↦ ⟨rfl, by simp [completedRow], rfl, rfl⟩
    have hc : s₁.WritesTo now all (cascadeChildrenOnParentFailure now s₁ j) :=
      (cascadesTo_cascadeChildrenOnParentFailure now s₁ j).written
    exact (hw.trans hc).trans (ih (fun k hk ↦ hmem k (List.mem_cons_of_mem _ hk)) h)

/-- `button_set_to_failed`. -/
theorem written_buttonSetToFailed (h : buttonSetToFailed now s self = .ok s') :
    s.WritesTo now self s' := by
  obtain ⟨s₁, h₁, h₂⟩ := bind_eq_ok.mp h
  cases h₂
  have hw := written_failEach (fun _ ↦ id) h₁
  exact hw.trans (cascadesTo_failDependents now s₁ self).written

/-- `button_requeue`. -/
theorem written_buttonRequeue (h : buttonRequeue now s self = .ok s')
    (hmem : ∀ j ∈ self, j ∈ all) : s.WritesTo now all s' := by
  induction self generalizing s with
  | nil => cases h; exact (CascadesTo.refl _).written
  | cons j self ih =>
    have hrest := fun k hk ↦ hmem k (List.mem_cons_of_mem j hk)
    rw [buttonRequeue] at h
    split at h
    · exact ih h hrest
    · obtain ⟨s₁, h₁, h⟩ := bind_eq_ok.mp h
      have hw := written_write h₁ (hmem j List.mem_cons_self)
        fun _ ↦ ⟨rfl, by simp [requeueRow], rfl, rfl⟩
      exact hw.trans (ih h hrest)

/-- `button_cancelled`. -/
theorem written_buttonCancelled
    (h : Fuel.Computes (fun fuel ↦ buttonCancelled now fuel s self) (.ok s')) :
    s.WritesTo now self s' := by
  obtain ⟨s₁, h₁, hc⟩ := (allowsCancellation_cascaded now).buttonCancelled h
  have hw : s.WritesTo now self s₁ := written_writeEach h₁ (fun _ ↦ id)
    fun _ ↦ ⟨rfl, by simp [cancelledRow], rfl, rfl⟩
  exact hw.trans (CascadesTo.written hc)

/-- `handle_exception` is a write of its own row with a cascade behind it. -/
theorem cascadesTo_handleException {cfg : WorkerConfig} {exc : JobException} {traceback : String}
    {r : Job} (h : handleException cfg now exc traceback s job = .ok s')
    (hr : s.get? job = some r) :
    ∃ s₁, s.write job (handledRow now traceback (dispositionOf cfg now exc r))
      (identityKey_handledRow now traceback _) = .ok s₁ ∧ s₁.CascadesTo now s' := by
  obtain ⟨s₁, hw, rfl⟩ := handleException_eq h hr
  refine ⟨s₁, hw, ?_⟩
  split
  · exact .refl s₁
  · exact cascadesTo_cascadeFailureToDependents now s₁ job

/-- The rows of other jobs behind `handle_exception`. -/
theorem get?_handleException_of_ne {cfg : WorkerConfig} {exc : JobException} {traceback : String}
    {r : Job} {i : JobId} (h : handleException cfg now exc traceback s job = .ok s')
    (hr : s.get? job = some r) (hi : i ≠ job) :
    Option.Rel (Cascaded now) (s.get? i) (s'.get? i) := by
  obtain ⟨s₁, hw, hc⟩ := cascadesTo_handleException h hr
  have hrow := hc i
  rwa [get?_write hw, if_neg hi] at hrow

end Calls

end JobWorker
