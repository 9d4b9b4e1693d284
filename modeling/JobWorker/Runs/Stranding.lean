import JobWorker.Models.GarbageCollection
import JobWorker.Runs.WorkerRuns

/-!
# No job waits in vain

A waiting job runs when a prerequisite ends, so it is stranded once no unfinished
prerequisite will tell it (`job_worker/models/queue_job.py:551–674,743–805`). The cascades
keep every waiting job supported, by its unfinished parent or by a counter that its
unfinished dependencies still cover, as long as each of them closes over the jobs that it
ends without running. A supported job has a pending or started job behind it, and a drained
queue leaves nothing waiting. `_gc_old_jobs` takes part at any time.
-/

namespace JobWorker

open Relational Reachability

namespace Store

/-- Job `i` is there and has not finished. -/
def isUnfinished (s : Store) (i : JobId) : Bool := (s.get? i).any fun r ↦ r.state.isActive

/-- The listed dependencies before row `i` that have not finished. -/
def openDependencies (s : Store) (i : JobId) (r : Job) : Finset JobId :=
  r.dependencies.toFinset.filter fun d ↦ d < i ∧ s.isUnfinished d = true

/-- A prerequisite of row `i` that has not finished will settle it or count it down. -/
inductive Supported (s : Store) (i : JobId) (r : Job) : Prop
  | parent {p : JobId} : r.parentId = some p → p < i → s.isUnfinished p = true →
      Supported s i r
  | counter : 1 ≤ r.pendingDependencyCount →
      r.pendingDependencyCount ≤ (s.openDependencies i r).card → Supported s i r

/-- Job `i` waits on job `k`, which has not finished. -/
def WaitsOnUnfinished (s : Store) (k i : JobId) : Prop := s.WaitsOn k i ∧ s.isUnfinished k = true

/-- Every waiting job is supported. -/
def AllSupported (s : Store) : Prop :=
  ∀ i r, s.get? i = some r → r.isWaiting = true → s.Supported i r

/-- A job is wired to an unfinished parent, or to distinct dependencies of which none has
finished. -/
def Anchors (s : Store) (r : Job) : Prop :=
  (∃ p, r.parentId = some p ∧ s.isUnfinished p = true) ∨
    r.dependencies ≠ [] ∧ r.dependencies.Nodup ∧ ∀ d ∈ r.dependencies, s.isUnfinished d = true

/-- What a transaction that completes `jobs` ends: nothing has a parent that has just
finished and still waits, or lists a job that has just finished without completing. -/
structure Settles (jobs : List JobId) (s s' : Store) : Prop where
  parent : ∀ i p, s'.Waiting i → s.ChildOf p i → s.isUnfinished p = true →
    s'.isUnfinished p = true
  dependency : ∀ i d, s'.Waiting i → s.DependsOn d i → s.isUnfinished d = true → d ∉ jobs →
    s'.isUnfinished d = true

section Supported

variable {s s' : Store} {i j p : JobId} {r : Job} {jobs : List JobId}

/-- An unfinished job has an active row. -/
theorem isUnfinished_iff :
    s.isUnfinished i = true ↔ ∃ r, s.get? i = some r ∧ r.state.isActive = true := by
  simp [isUnfinished, Option.any_eq_true]

/-- A row decides whether its job is unfinished. -/
theorem isUnfinished_of_get? (hr : s.get? i = some r) :
    s.isUnfinished i = r.state.isActive := by
  simp [isUnfinished, hr]

/-- A job whose state is active is unfinished. -/
theorem isUnfinished_of_stateOf {st : JobState} (h : s.stateOf i = some st)
    (ha : st.isActive = true) : s.isUnfinished i = true := by
  obtain ⟨r, hr, rfl⟩ := stateOf_eq_some.mp h
  rwa [isUnfinished_of_get? hr]

/-- An unfinished dependency before the row. -/
theorem mem_openDependencies {d : JobId} :
    d ∈ s.openDependencies i r ↔ d ∈ r.dependencies ∧ d < i ∧ s.isUnfinished d = true := by
  simp [openDependencies]

/-- A supported row waits on an earlier job that has not finished. -/
theorem Supported.exists_waitsOn (h : s.Supported i r) :
    ∃ k, k < i ∧ r.WaitsOn k ∧ s.isUnfinished k = true := by
  cases h with
  | @parent p hp hlt hu => exact ⟨p, hlt, .inl hp, hu⟩
  | counter hpos hle =>
    have hcard : 0 < (s.openDependencies i r).card := by omega
    obtain ⟨d, hd⟩ := Finset.card_pos.mp hcard
    obtain ⟨hmem, hlt, hu⟩ := mem_openDependencies.mp hd
    exact ⟨d, hlt, .inr (Job.dependsOn_iff.mpr hmem), hu⟩

/-- A statement that ends no prerequisite of a waiting job settles whatever it does. -/
theorem Settles.of_waitsOn (h : ∀ i k, s'.Waiting i → s.WaitsOn k i →
    s.isUnfinished k = true → s'.isUnfinished k = true) : Settles jobs s s' where
  parent i p hw hc := h i p hw (waitsOn_iff_childOf_or_dependsOn.mpr (.inl hc))
  dependency i d hw hd hu _ := h i d hw (waitsOn_iff_childOf_or_dependsOn.mpr (.inr hd)) hu

/-- A transaction that ends nothing settles. -/
theorem Settles.of_isUnfinished
    (h : ∀ k, s.isUnfinished k = true → s'.isUnfinished k = true) : Settles jobs s s' :=
  .of_waitsOn fun _ k _ _ ↦ h k

/-- Dependencies stay open, up to the completed ones that the row lists. -/
theorem card_openDependencies_le {r' : Job} (hs : Settles jobs s s') (hr : s.get? i = some r)
    (hw : s'.Waiting i) (hwire : r'.wiring = r.wiring) :
    (s.openDependencies i r).card ≤ (s'.openDependencies i r').card + r.listed jobs := by
  have hsub : s.openDependencies i r ⊆
      s'.openDependencies i r' ∪ (jobs.filter r.dependsOn).toFinset := by
    intro d hd
    obtain ⟨hmem, hlt, hu⟩ := mem_openDependencies.mp hd
    rw [Finset.mem_union, mem_openDependencies, List.mem_toFinset, List.mem_filter]
    by_cases hj : d ∈ jobs
    · exact .inr ⟨hj, Job.dependsOn_iff.mpr hmem⟩
    · left
      refine ⟨Job.dependencies_of_wiring hwire ▸ hmem, hlt, ?_⟩
      exact hs.dependency i d hw ((dependsOn_iff hr).mpr (Job.dependsOn_iff.mpr hmem)) hu hj
  calc (s.openDependencies i r).card
      ≤ (s'.openDependencies i r' ∪ (jobs.filter r.dependsOn).toFinset).card :=
        Finset.card_le_card hsub
    _ ≤ (s'.openDependencies i r').card + (jobs.filter r.dependsOn).toFinset.card :=
        Finset.card_union_le _ _
    _ ≤ (s'.openDependencies i r').card + (jobs.filter r.dependsOn).length := by
        apply Nat.add_le_add_left
        exact List.toFinset_card_le _
    _ = (s'.openDependencies i r').card + r.listed jobs := by
        rw [Job.listed, List.countP_eq_length_filter]

/-- A row that goes on waiting stays supported when its counter has gone down by the
completed jobs that it lists, and stays positive. -/
theorem Supported.keep {r' : Job} (h : s.Supported i r) (hs : Settles jobs s s')
    (hr : s.get? i = some r) (hw : s'.Waiting i) (hwire : r'.wiring = r.wiring)
    (hcount : r'.pendingDependencyCount = r.pendingDependencyCount - r.listed jobs)
    (hpos : ¬ r.ReleasedBy jobs) : s'.Supported i r' := by
  cases h with
  | @parent p hp hlt hu =>
    refine .parent ((Job.parentId_of_wiring hwire).trans hp) hlt ?_
    exact hs.parent i p hw ((childOf_iff hr).mpr hp) hu
  | counter hone hle =>
    have hcard := card_openDependencies_le hs hr hw hwire
    have hleft : r.listed jobs = 0 ∨ (r.listed jobs : Int) < r.pendingDependencyCount := by
      rw [Job.ReleasedBy] at hpos
      omega
    apply Supported.counter <;> omega

/-- A quiet transaction that settles keeps every waiting job supported. -/
theorem AllSupported.quiet {except : JobId → Prop} (h : s.AllSupported)
    (hq : Quiet except s s') (hs : Settles [] s s') : s'.AllSupported := by
  intro i r' hr' hw'
  obtain ⟨r, hr, hwire⟩ := hq.sameWiring.row_before hr'
  obtain ⟨q, hrq, hcount⟩ := hq.sameCounts.row_before hr'
  obtain rfl : r = q := Option.some.inj (hr.symm.trans hrq)
  have hw := (waiting_iff hr).mp (hq.waiting i ⟨r', hr', hw'⟩)
  apply (h i r hr hw).keep hs hr ⟨r', hr', hw'⟩ hwire
  · simp [Job.listed, hcount]
  · simp [Job.ReleasedBy, Job.listed]

/-- A completion that settles keeps every waiting job supported. -/
theorem AllSupported.completion {children : Prop} (h : s.AllSupported)
    (hc : Completion jobs children s s') (hs : Settles jobs s s') : s'.AllSupported := by
  intro i r' hr' hw'
  have hwaits : s'.Waiting i := ⟨r', hr', hw'⟩
  obtain ⟨r, hr, _⟩ := hc.sameWiring.row_before hr'
  have hw := (waiting_iff hr).mp (hc.waiting i hwaits)
  have hstate : s'.stateOf i = some .waiting := by
    rw [stateOf_of_get? hr', Job.isWaiting_iff.mp hw']
  cases hc.row i r (hc.not_mem hwaits) hr hw with
  | swept _ hst => rw [hstate] at hst; cases hst
  | settled _ _ hst =>
    rw [hstate] at hst
    split at hst <;> cases hst
  | @counted q _ _ hnrel hq _ hwire hcount =>
    obtain rfl : r' = q := Option.some.inj (hr'.symm.trans hq)
    exact (h i r hr hw).keep hs hr hwaits hwire hcount hnrel

/-- An anchored insertion keeps every waiting job supported. -/
theorem AllSupported.create {vals : Job} (h : s.AllSupported)
    (hcreate : s.create vals = .ok (s', j))
    (hcount : vals.pendingDependencyCount = vals.dependencies.length)
    (hanchor : vals.isWaiting = true → s.Anchors vals) : s'.AllSupported := by
  have hkeep (k : JobId) (hu : s.isUnfinished k = true) :
      s'.isUnfinished k = true ∧ k < j := by
    obtain ⟨q, hq, ha⟩ := isUnfinished_iff.mp hu
    refine ⟨isUnfinished_iff.mpr ⟨q, get?_create_of_some hcreate hq, ha⟩, ?_⟩
    rw [(create_nextId hcreate).1]
    exact s.lt_nextId k q hq
  intro i r hr hw
  rcases get?_create_cases hcreate hr with ⟨rfl, rfl⟩ | hr
  · rcases hanchor hw with ⟨p, hp, hu⟩ | ⟨hne, hnodup, hall⟩
    · exact .parent hp (hkeep p hu).2 (hkeep p hu).1
    · have hopen : s'.openDependencies i r = r.dependencies.toFinset := by
        ext d
        rw [mem_openDependencies, List.mem_toFinset, and_iff_left_iff_imp]
        exact fun hd ↦ ⟨(hkeep d (hall d hd)).2, (hkeep d (hall d hd)).1⟩
      have hlen : 0 < r.dependencies.length := List.length_pos_iff.mpr hne
      apply Supported.counter
      · omega
      · rw [hopen, List.toFinset_card_of_nodup hnodup, hcount]
  · cases h i r hr hw with
    | @parent p hp hlt hu => exact .parent hp hlt (hkeep p hu).1
    | counter hone hle =>
      have hsub : s.openDependencies i r ⊆ s'.openDependencies i r := by
        intro d hd
        obtain ⟨hmem, hlt, hu⟩ := mem_openDependencies.mp hd
        exact mem_openDependencies.mpr ⟨hmem, hlt, (hkeep d hu).1⟩
      have hcard := Finset.card_le_card hsub
      apply Supported.counter hone
      omega

/-- A chunk of `_gc_old_jobs` deletes finished jobs only. -/
theorem get?_unlink_of_isUnfinished {cutoff : Time} (hu : s.isUnfinished i = true) :
    i ∉ s.oldJobs cutoff := by
  intro hmem
  obtain ⟨r, hr, hold⟩ := isOld_of_mem_oldJobs hmem
  obtain ⟨t, ht, _⟩ := Job.isOld_iff.mp hold
  have hterm := Job.isTerminal_of_stamp ht
  rw [isUnfinished_of_get? hr] at hu
  rw [JobState.isTerminal, hu] at hterm
  cases hterm

/-- What is unfinished in front of a chunk is unfinished behind it. -/
theorem isUnfinished_unlink {cutoff : Time} (hu : s.isUnfinished i = true) :
    (s.unlink (s.oldJobs cutoff)).isUnfinished i = true := by
  obtain ⟨r, hr, ha⟩ := isUnfinished_iff.mp hu
  refine isUnfinished_iff.mpr ⟨orphanRow (s.oldJobs cutoff) r, ?_, ?_⟩
  · rw [get?_unlink, if_neg (get?_unlink_of_isUnfinished hu), hr, Option.map_some]
  · rw [orphanRow]
    split <;> exact ha

/-- A chunk of `_gc_old_jobs` takes no support away: the parent that it would cut off has
finished, and the counter column stays. -/
theorem AllSupported.unlink (h : s.AllSupported) (cutoff : Time) :
    (s.unlink (s.oldJobs cutoff)).AllSupported := by
  intro i r' hr' hw'
  rw [get?_unlink] at hr'
  split at hr'
  · cases hr'
  obtain ⟨r, hr, rfl⟩ := Option.map_eq_some_iff.mp hr'
  have hsame : (orphanRow (s.oldJobs cutoff) r).isWaiting = r.isWaiting ∧
      (orphanRow (s.oldJobs cutoff) r).dependencies = r.dependencies ∧
      (orphanRow (s.oldJobs cutoff) r).pendingDependencyCount = r.pendingDependencyCount := by
    rw [orphanRow]
    split <;> exact ⟨rfl, rfl, rfl⟩
  cases h i r hr (hsame.1 ▸ hw') with
  | @parent p hp hlt hu =>
    refine .parent (p := p) ?_ hlt (isUnfinished_unlink hu)
    rw [orphanRow, if_neg, hp]
    simp [hp, get?_unlink_of_isUnfinished hu]
  | counter hone hle =>
    have hsub : s.openDependencies i r ⊆ (s.unlink (s.oldJobs cutoff)).openDependencies i
        (orphanRow (s.oldJobs cutoff) r) := by
      intro d hd
      obtain ⟨hmem, hlt, hu⟩ := mem_openDependencies.mp hd
      exact mem_openDependencies.mpr ⟨hsame.2.1 ▸ hmem, hlt, isUnfinished_unlink hu⟩
    have hcard := Finset.card_le_card hsub
    apply Supported.counter <;> omega

end Supported
end Store

/-! ### What the transactions settle -/

section Settles

variable {s s' : Store} {now : Time} {i j : JobId} {js self : List JobId}

/-- What waits behind the loop of a failure waited in front of it, and is none of its jobs. -/
theorem waiting_failEach {f : Job → Job} {hk : ∀ r, (f r).identityKey = r.identityKey}
    (hf : ∀ r, (f r).state = .failed) (h : failEach now f hk s js = .ok s') :
    ∀ i, s'.Waiting i → s.Waiting i ∧ i ∉ js := by
  induction js generalizing s with
  | nil => cases h; exact fun i hw ↦ ⟨hw, List.not_mem_nil⟩
  | cons j js ih =>
    rw [failEach, List.foldlM_cons] at h
    obtain ⟨s₂, h₂, h⟩ := bind_eq_ok.mp h
    obtain ⟨s₁, h₁, h₂⟩ := bind_eq_ok.mp h₂
    cases h₂
    intro i hw
    obtain ⟨hw, hi⟩ := ih h i hw
    rw [cascadeChildrenOnParentFailure_eq_walk] at hw
    obtain ⟨r, hr, hwr⟩ := ((Store.waiting_walk _ _ _ _).mp hw).1
    rw [Store.get?_write h₁] at hr
    split at hr
    · obtain ⟨q, _, rfl⟩ := Option.map_eq_some_iff.mp hr
      rw [Job.isWaiting_iff, hf] at hwr
      cases hwr
    · next hij =>
      refine ⟨⟨r, hr, hwr⟩, ?_⟩
      simp [hij, hi]

/-- What waits behind a failure waited in front of it, and has not failed itself. -/
theorem FailsPermanently.waiting (h : FailsPermanently s js s') :
    ∀ i, s'.Waiting i → s.Waiting i ∧ i ∉ js := by
  obtain ⟨now, f, hk, s₁, hf, _, h₁, rfl⟩ := h.failEach
  intro i hw
  apply waiting_failEach hf h₁
  have hquiet : Quiet (fun _ ↦ False) s₁ (failDependents now s₁ js) :=
    quiet_failDependents now s₁ js
  exact hquiet.waiting i hw

/-- A closed failure settles: nothing waits on a job that has failed. -/
theorem FailsPermanently.settles (h : FailsPermanently s js s')
    (hc : s.FailureClosedBelow js) : s.Settles [] s' := by
  have hclosed := (failureClosed_iff h).mpr hc
  apply Store.Settles.of_waitsOn
  intro i k hw hwaits hu
  by_contra hn
  obtain ⟨r', hr', hw'⟩ := hw
  obtain ⟨r, hr, hwire⟩ := h.sameWiring.row_before hr'
  have hstate : s'.stateOf i = some .waiting := by
    rw [Store.stateOf_of_get? hr', Job.isWaiting_iff.mp hw']
  -- The prerequisite has ended, so it is one of the failed jobs or failed with them.
  have hfailed : FailedBy s s' js k := by
    by_cases hk : k ∈ js
    · exact .inl hk
    · obtain ⟨q, hqk, hact⟩ := Store.isUnfinished_iff.mp hu
      obtain ⟨hhit, hmiss⟩ := h.stateOf hk hqk
      by_cases hit : s.FailureHit js k
      · refine .inr ⟨(FailureHit.entered hit).1, ?_⟩
        have hst := hhit hit
        split at hst
        · exact absurd (Store.isUnfinished_of_stateOf hst rfl) hn
        · exact hst
      · exact absurd (Store.isUnfinished_of_stateOf (hmiss hit) hact) hn
  obtain ⟨hbefore, hi⟩ := h.waiting i ⟨r', hr', hw'⟩
  have hang : HangsOnFailed s s' js i r :=
    ⟨hr, hi, (Store.waiting_iff hr).mp hbefore, k, hfailed, (Store.waitsOn_iff hr).mp hwaits⟩
  cases hrun : r.runOnFailure with
  | false => have hst := hclosed.onDone i r hang hrun; rw [hstate] at hst; cases hst
  | true => have hst := hclosed.onError i r hang hrun; rw [hstate] at hst; cases hst

/-- A closed success settles: nothing waits on a job that it has cancelled, and the
completed job has no child left. -/
theorem CompletesSuccessfully.settles (h : CompletesSuccessfully s j s')
    (hc : s.SuccessClosedBelow j) : s.Settles [j] s' := by
  have hclosed := (successClosed_iff h).mpr hc
  have hopen (i k : JobId) (hw : s'.Waiting i) (hwaits : s.WaitsOn k i)
      (hu : s.isUnfinished k = true) (hk : k ≠ j) : s'.isUnfinished k = true := by
    by_contra hn
    obtain ⟨r', hr', hw'⟩ := hw
    obtain ⟨q, hq, hact⟩ := Store.isUnfinished_iff.mp hu
    -- A completion ends another job only by cancelling it.
    have hcancelled : CancelledBy s s' j k := by
      obtain ⟨hbelow, hrest⟩ := h.stateOf hk hq
      by_cases hb : s.CancelledBelow j k
      · exact ⟨hk, hb.entered.1, hbelow hb⟩
      · have hst := hrest hb
        rw [successState] at hst
        split at hst
        · exact absurd (Store.isUnfinished_of_stateOf hst rfl) hn
        split at hst
        · next hdep =>
          split at hst
          · exact ⟨hk, (Store.waiting_iff hq).mpr (isWaiting_of_dependent j q hdep.1), hst⟩
          · exact absurd (Store.isUnfinished_of_stateOf hst rfl) hn
        · exact absurd (Store.isUnfinished_of_stateOf hst hact) hn
    apply hclosed.noneWaits i r' k hr' hw' hcancelled
    exact (Store.waitsOn_iff hr').mp (h.sameWiring.waitsOn.mpr hwaits)
  constructor
  · intro i p hw hchild hu
    have hwaits := Store.waitsOn_iff_childOf_or_dependsOn.mpr (.inl hchild)
    apply hopen i p hw hwaits hu
    rintro rfl
    obtain ⟨r', hr', hw'⟩ := hw
    obtain ⟨r, hr, hwire⟩ := h.sameWiring.row_before hr'
    have hi : i ≠ p := h.completion.not_mem ⟨r', hr', hw'⟩ ∘ List.mem_singleton.mpr
    have hbefore := (Store.waiting_iff hr).mp (h.waiting_mono ⟨r', hr', hw'⟩)
    have hpar := (Store.childOf_iff hr).mp hchild
    have hstate : s'.stateOf i = some .waiting := by
      rw [Store.stateOf_of_get? hr', Job.isWaiting_iff.mp hw']
    rcases h.waiting_cases hi hr hbefore with ⟨_, hst⟩ | ⟨_, _, hst⟩ | ⟨_, _, _, _, hno, _⟩
    · rw [hstate] at hst
      cases hst
    · rw [hstate] at hst
      split at hst <;> cases hst
    · exact hno hpar
  · intro i d hw hdep hu hd
    have hwaits := Store.waitsOn_iff_childOf_or_dependsOn.mpr (.inr hdep)
    exact hopen i d hw hwaits hu fun heq ↦ hd (List.mem_singleton.mpr heq)

/-- A cancellation settles: it cancels whatever waits on a job that it cancels. -/
theorem settles_buttonCancelled
    (h : Fuel.Computes (fun fuel ↦ buttonCancelled now fuel s self) (.ok s')) :
    s.Settles [] s' := by
  obtain ⟨⟨_, hcancelled, hframe, _⟩, hsame⟩ := cancelExact_of_buttonCancelled h
  have hq : Quiet (fun _ ↦ False) s s' := quiet_buttonCancelled h
  apply Store.Settles.of_waitsOn
  intro i k hw hwaits hu
  by_contra hn
  obtain ⟨q, hqk, hact⟩ := Store.isUnfinished_iff.mp hu
  have hin : k ∈ self ∨ s.CancelClosure self k := by
    by_contra hout
    rw [not_or] at hout
    exact hn (Store.isUnfinished_of_stateOf (hframe k q hqk hout.1 hout.2) hact)
  have hbefore := hq.waiting i hw
  have hclosure : s.CancelClosure self i := by
    rcases hin with hk | hk
    · refine .seed ⟨k, hk, ⟨q, hqk, ?_⟩, hwaits⟩ hbefore
      rw [JobState.isTerminal, hact]
      rfl
    · exact .step hk trivial hwaits hbefore
  obtain ⟨r, hr, _⟩ := hbefore
  have hst := hcancelled i r hr (.inr hclosure)
  rw [Store.waiting_iff_stateOf.mp hw] at hst
  cases hst

/-- Completions by hand are flat: outside `self`, what waits has no parent among the jobs
of `self` and waits on no handler that they cancel, unless they settle it too. -/
def Store.CompletesFlat (s : Store) (self : List JobId) : Prop :=
  ∀ i r, s.get? i = some r → r.isWaiting = true → i ∉ self → ¬ r.ReleasedBy self →
    (∀ p ∈ self, r.parentId ≠ some p) ∧
      ∀ k q, s.get? k = some q → q.isWaiting = true → q.runOnFailure = true →
        q.ReleasedBy self → ¬ r.WaitsOn k

/-- What waits behind a completion by hand waited in front of it, unreleased. -/
theorem waiting_buttonSetToDone (h : buttonSetToDone now s self = .ok s') (hw : s'.Waiting i) :
    ∃ r, s.get? i = some r ∧ r.isWaiting = true ∧ i ∉ self ∧ ¬ r.ReleasedBy self := by
  have hcompletion := completion_buttonSetToDone h
  obtain ⟨r, hr, hwr⟩ := hcompletion.waiting i hw
  have hi := hcompletion.not_mem hw
  refine ⟨r, hr, hwr, hi, fun hrel ↦ ?_⟩
  have hst := stateOf_buttonSetToDone h hi hr
  rw [if_pos ⟨hwr, hrel⟩, Store.waiting_iff_stateOf.mp hw] at hst
  split at hst <;> cases hst

/-- Flat completions by hand settle. -/
theorem settles_buttonSetToDone (h : buttonSetToDone now s self = .ok s')
    (hflat : s.CompletesFlat self) : s.Settles self s' := by
  have hopen (i k : JobId) (hw : s'.Waiting i) (hwaits : s.WaitsOn k i)
      (hu : s.isUnfinished k = true) (hk : k ∉ self) : s'.isUnfinished k = true := by
    by_contra hn
    obtain ⟨q, hq, hact⟩ := Store.isUnfinished_iff.mp hu
    obtain ⟨r, hr, hwr, hi, hrel⟩ := waiting_buttonSetToDone h hw
    have hst := stateOf_buttonSetToDone h hk hq
    split at hst
    · next hset =>
      cases hrun : q.runOnFailure with
      | false =>
        rw [hrun] at hst
        exact hn (Store.isUnfinished_of_stateOf hst rfl)
      | true =>
        apply (hflat i r hr hwr hi hrel).2 k q hq hset.1 hrun hset.2
        exact (Store.waitsOn_iff hr).mp hwaits
    · exact hn (Store.isUnfinished_of_stateOf hst hact)
  constructor
  · intro i p hw hchild hu
    apply hopen i p hw (Store.waitsOn_iff_childOf_or_dependsOn.mpr (.inl hchild)) hu
    intro hp
    obtain ⟨r, hr, hwr, hi, hrel⟩ := waiting_buttonSetToDone h hw
    exact (hflat i r hr hwr hi hrel).1 p hp ((Store.childOf_iff hr).mp hchild)
  · intro i d hw hdep hu hd
    exact hopen i d hw (Store.waitsOn_iff_childOf_or_dependsOn.mpr (.inr hdep)) hu hd

/-- A write of an active state ends nothing. -/
theorem Store.isUnfinished_write {f : Job → Job}
    {hk : ∀ r, (f r).identityKey = r.identityKey} (h : s.write j f hk = .ok s')
    (hf : ∀ r, (f r).state.isActive = true) {k : JobId} (hu : s.isUnfinished k = true) :
    s'.isUnfinished k = true := by
  obtain ⟨r, hr, ha⟩ := isUnfinished_iff.mp hu
  have hrow := get?_write h k
  split at hrow
  · exact isUnfinished_iff.mpr ⟨f r, by rw [hrow, hr, Option.map_some], hf r⟩
  · exact isUnfinished_iff.mpr ⟨r, by rw [hrow, hr], ha⟩

/-- A statement that keeps the state column settles. -/
theorem Store.settles_update {jobs : List JobId} {p : JobId → Job → Bool}
    {f : JobId → Job → Job} (hk : s.Keeps p f) (hf : ∀ i r, (f i r).state = r.state) :
    Settles jobs s (s.update p f hk) := by
  apply Settles.of_isUnfinished
  intro k hu
  obtain ⟨r, hr, ha⟩ := isUnfinished_iff.mp hu
  refine isUnfinished_iff.mpr ⟨if p k r then f k r else r, ?_, ?_⟩
  · rw [get?_update, hr, Option.map_some]
  · split
    · rwa [hf]
    · exact ha

/-- A submission ends nothing. -/
theorem isUnfinished_enqueue {env : OrmEnv} {args : EnqueueArgs}
    (h : enqueue env now s args = .ok (s', j)) {k : JobId} (hu : s.isUnfinished k = true) :
    s'.isUnfinished k = true := by
  rcases enqueue_cases h with ⟨rfl, _⟩ | ⟨_, _, _, hcreate⟩
  · exact hu
  · obtain ⟨r, hr, ha⟩ := Store.isUnfinished_iff.mp hu
    exact Store.isUnfinished_iff.mpr ⟨r, Store.get?_create_of_some hcreate hr, ha⟩

/-- A requeue ends nothing. -/
theorem isUnfinished_buttonRequeue (h : buttonRequeue now s self = .ok s') {k : JobId}
    (hu : s.isUnfinished k = true) : s'.isUnfinished k = true := by
  induction self generalizing s with
  | nil => cases h; exact hu
  | cons job self ih =>
    rw [buttonRequeue] at h
    split at h
    · exact ih h hu
    · obtain ⟨s₁, h₁, h⟩ := bind_eq_ok.mp h
      exact ih h (Store.isUnfinished_write h₁ (fun _ ↦ rfl) hu)

/-- A retry ends nothing. -/
theorem isUnfinished_handleException {cfg : WorkerConfig} {exc : JobException}
    {traceback : String} {r : Job} (h : handleException cfg now exc traceback s j = .ok s')
    (hr : s.get? j = some r) (hretry : ∀ counted, dispositionOf cfg now exc r ≠ .fail counted)
    {k : JobId} (hu : s.isUnfinished k = true) : s'.isUnfinished k = true := by
  obtain ⟨s₁, hw, rfl⟩ := handleException_eq h hr
  cases hd : dispositionOf cfg now exc r with
  | retry scheduledAt counted =>
    rw [hd] at hw
    exact Store.isUnfinished_write hw (fun _ ↦ rfl) hu
  | fail counted => exact absurd hd (hretry counted)

section Acquire

variable {cfg : WorkerConfig} {limits : QueueLimits} {locked : JobId → Bool} {r : Job}

/-- A statement that leaves the locked row active ends nothing. -/
theorem isUnfinished_updateLocked {job : JobId} (hr : s.get? job = some r)
    (ha : r.state.isActive = true) {f : Job → Job} (hk : (f r).identityKey = r.identityKey)
    (hf : (f r).state.isActive = true) {k : JobId} (hu : s.isUnfinished k = true) :
    (s.updateLocked job r hr ha f hk).isUnfinished k = true := by
  obtain ⟨q, hq, hact⟩ := Store.isUnfinished_iff.mp hu
  have hrow := get?_updateLocked hr ha f hk (i := k)
  split at hrow
  · exact Store.isUnfinished_iff.mpr ⟨f r, hrow, hf⟩
  · exact Store.isUnfinished_iff.mpr ⟨q, hrow.trans hq, hact⟩

/-- An acquire ends a job only where it meets an exhausted one. -/
theorem isUnfinished_acquireJobLock
    (h : ∀ j r, ¬ ReclaimExhausts cfg limits locked now s j r) {k : JobId}
    (hu : s.isUnfinished k = true) :
    (acquireJobLock cfg limits locked now s).1.isUnfinished k = true := by
  cases hf : (cfg.candidates limits now s).find? fun i ↦ !locked i with
  | none =>
    unfold acquireJobLock
    rwa [hf]
  | some job =>
    obtain ⟨q, hq, hp⟩ := Table.mem_selectBy.mp (List.mem_of_find?_eq_some hf)
    have ha := WorkerConfig.isActive_of_acquirable (Bool.and_eq_true_iff.mp hp).1
    rw [acquireJobLock_of_find hf hq]
    unfold acquireRow
    split
    · exact isUnfinished_updateLocked hq ha rfl rfl hu
    · next hs =>
      split
      · next he => exact absurd ⟨hf, hq, not_not.mp hs, he⟩ (h job q)
      · exact isUnfinished_updateLocked hq ha rfl rfl hu

/-- The reclaim of an exhausted job settles when its cascade is closed and flat. -/
theorem ReclaimExhausts.settles (h : ReclaimExhausts cfg limits locked now s j r)
    (hc : s.FailureClosedBelow [j]) (hflat : s.FlatBelow j) :
    s.Settles [] (acquireJobLock cfg limits locked now s).1 := by
  rw [h.acquire]
  have hrow {i : JobId} {q : Job} (hi : i ≠ j) (hq : s.get? i = some q) :
      h.failed.get? i = some q := by rw [h.get?, if_neg hi, hq]
  apply Store.Settles.of_waitsOn
  intro i k hw hwaits hu
  by_contra hn
  have hq : Quiet (fun _ ↦ False) h.failed (cascadeWorkerDied now h.failed j) :=
    quiet_cascadeWorkerDied now h.failed j
  obtain ⟨r₁, hr₁, hw₁⟩ := hq.waiting i hw
  have hi : i ≠ j := by
    rintro rfl
    rw [h.get?, if_pos rfl] at hr₁
    cases hr₁
    cases hw₁
  have hr : s.get? i = some r₁ := by rwa [h.get?, if_neg hi] at hr₁
  have hwaits := (Store.waitsOn_iff hr).mp hwaits
  -- A row that waits on the exhausted job itself has been moved.
  have hmoved : ¬ r₁.WaitsOn j := by
    intro hj
    have hst : (cascadeWorkerDied now h.failed j).stateOf i =
        some (if r₁.runOnFailure then .pending else .failed) :=
      (stateOf_cascadeWorkerDied_cases hr₁).1 ⟨hw₁, hj⟩
    rw [Store.waiting_iff_stateOf.mp hw] at hst
    split at hst <;> cases hst
  have hkj : k ≠ j := by
    rintro rfl
    exact hmoved hwaits
  obtain ⟨q, hqk, hact⟩ := Store.isUnfinished_iff.mp hu
  by_cases hkw : q.isWaiting = true ∧ q.WaitsOn j
  · have hst : (cascadeWorkerDied now h.failed j).stateOf k =
        some (if q.runOnFailure then .pending else .failed) :=
      (stateOf_cascadeWorkerDied_cases (hrow hkj hqk)).1 hkw
    split at hst
    · exact hn (Store.isUnfinished_of_stateOf hst rfl)
    · next hrun =>
      have hkhit : s.FailureHit [j] k :=
        hit_of_waitsOn hqk hkw.1 (by simpa using hkj) List.mem_cons_self hkw.2
      have hihit := hc i r₁ hr hw₁ (by simpa using hi) k hkhit
        ((Store.onDone_iff hqk).mpr (Bool.eq_false_iff.mpr hrun)) hwaits
      rcases hihit with hbelow | ⟨_, p, hp, hdep⟩
      · exact hmoved (hflat i r₁ hr hbelow)
      · obtain rfl := List.mem_singleton.mp hp
        exact hmoved (.inr ((Store.dependsOn_iff hr).mp hdep))
  · have hst : (cascadeWorkerDied now h.failed j).stateOf k = some q.state :=
      (stateOf_cascadeWorkerDied_cases (hrow hkj hqk)).2 hkw
    exact hn (Store.isUnfinished_of_stateOf hst hact)

end Acquire
end Settles

namespace World

/-- A submission that waits is anchored. -/
def AnchorsArgs (s : Store) (args : EnqueueArgs) : Prop :=
  args.parentId.any (· ≠ 0) = true ∨ args.dependencyJobIds.getD [] ≠ [] →
    (∃ p, args.parentId.filter (· ≠ 0) = some p ∧ s.isUnfinished p = true) ∨
      args.dependencyJobIds.getD [] ≠ [] ∧ (args.dependencyJobIds.getD []).Nodup ∧
        ∀ d ∈ args.dependencyJobIds.getD [], s.isUnfinished d = true

/-- The cascade that an event would run in this world reaches everything that waits on a
job which it ends, and a submission that waits is anchored. -/
def ClosesCascades (w : World) : Event → Prop
  | .enqueue _ args => AnchorsArgs w.store args
  | .acquireJobLock cfg limits locked => ∀ j r,
      ReclaimExhausts cfg limits locked w.now w.store j r →
        w.store.FailureClosedBelow [j] ∧ w.store.FlatBelow j
  | .finalizeJob a _ => w.store.SuccessClosedBelow a.job
  | .handleException a exc _ => ∀ r counted, w.store.get? a.job = some r →
      dispositionOf a.cfg w.now exc r = .fail counted → w.store.FailureClosedBelow [a.job]
  | .runNow job run =>
      match run.outcome with
      | .returns _ => w.store.SuccessClosedBelow job
      | .raises exc _ => exc.retryable? = none → w.store.FailureClosedBelow [job]
  | .buttonSetToDone self => w.store.CompletesFlat self
  | .buttonSetToFailed self => w.store.FailureClosedBelow self
  | .tick _ | .heartbeatJob _ | .updateHeartbeats _ | .handleTimeout _ _
  | .clearWorkerOwnership _ | .die _ | .buttonRequeue _ | .buttonCancelled _ => True

section Events

variable {w : World} {e : Event} {s' : Store}

/-- Every event whose cascade closes settles the jobs that it completes. -/
theorem Commits.settles (h : w.Commits e s') (hg : w.ClosesCascades e) :
    w.store.Settles (completes e) s' := by
  cases h with
  | tick | die => exact .of_isUnfinished fun _ hu ↦ hu
  | enqueue h => exact .of_isUnfinished fun _ ↦ isUnfinished_enqueue h
  | @acquireJobLock cfg limits locked =>
    by_cases hx : ∃ j r, ReclaimExhausts cfg limits locked w.now w.store j r
    · obtain ⟨j, r, hx⟩ := hx
      exact hx.settles (hg j r hx).1 (hg j r hx).2
    · push Not at hx
      exact .of_isUnfinished fun _ ↦ isUnfinished_acquireJobLock hx
  | heartbeatJob | updateHeartbeats | handleTimeout | clearWorkerOwnership =>
    exact Store.settles_update _ fun _ _ ↦ rfl
  | finalizeJob _ h => exact (CompletesSuccessfully.finalizeJob h).settles hg
  | @handleException a exc traceback s' _ h =>
    cases hr : w.store.get? a.job with
    | none =>
      rw [handleException_of_absent hr] at h
      cases h
      exact .of_isUnfinished fun _ hu ↦ hu
    | some r =>
      by_cases hd : ∃ counted, dispositionOf a.cfg w.now exc r = .fail counted
      · obtain ⟨counted, hd⟩ := hd
        exact (FailsPermanently.handleException hr hd h).settles (hg r counted hr hd)
      · push Not at hd
        exact .of_isUnfinished fun _ ↦ isUnfinished_handleException h hr hd
  | @runNow job run s' raised _ h =>
    rw [ClosesCascades] at hg
    cases ho : run.outcome with
    | returns serialized =>
      rw [ho] at hg
      rw [show completes (.runNow job run) = [job] by rw [completes, ho]]
      obtain rfl := not_raised_of_returns ho h
      exact (CompletesSuccessfully.runNow ho h).settles hg
    | raises exc traceback =>
      rw [ho] at hg
      rw [show completes (.runNow job run) = [] by rw [completes, ho]]
      cases heffect : raised with
      | true =>
        subst heffect
        refine (FailsPermanently.runNow h).settles ?_
        cases runEffect h with
        | crashed ho' hnone =>
          rw [ho] at ho'
          cases ho'
          exact hg hnone
      | false =>
        subst heffect
        apply Store.Settles.of_isUnfinished
        intro k hu
        cases runEffect h with
        | returned ho' => rw [ho] at ho'; cases ho'
        | postponed _ _ hw => exact Store.isUnfinished_write hw (fun _ ↦ rfl) hu
  | buttonSetToDone _ h => exact settles_buttonSetToDone h hg
  | buttonSetToFailed _ h => exact (FailsPermanently.buttonSetToFailed h).settles hg
  | buttonRequeue _ h => exact .of_isUnfinished fun _ ↦ isUnfinished_buttonRequeue h
  | buttonCancelled _ h => exact settles_buttonCancelled h

end Events

/-! ### Runs -/

/-- Worlds reached from the empty database by events that meet `guard`, with chunks of
`_gc_old_jobs` at any time; each commits on its own (`models/queue_job.py:1056–1090`). -/
inductive Maintained (guard : World → Event → Prop) : World → Prop
  | init (now : Time) : Maintained guard (init now)
  | step {w w' : World} {e : Event} :
      Maintained guard w → guard w e → w.Step e w' → Maintained guard w'
  | gcOldJobs {w : World} (cutoff : Time) : Maintained guard w →
      Maintained guard { w with store := w.store.unlink (w.store.oldJobs cutoff) }

/-- An invariant of the table that guarded events and deletions keep. -/
theorem Maintained.invariant {guard : World → Event → Prop} {P : Store → Prop}
    (hinit : P .empty)
    (hstep : ∀ w e s', P w.store → guard w e → w.Commits e s' → P s')
    (hgc : ∀ s cutoff, P s → P (s.unlink (s.oldJobs cutoff))) {w : World}
    (h : Maintained guard w) : P w.store := by
  induction h with
  | init now => exact hinit
  | @step w w' e _ hg hs ih =>
    obtain ⟨s', hc, rfl⟩ := hs
    exact hstep w e s' ih hg hc
  | gcOldJobs cutoff _ ih => exact hgc _ cutoff ih

/-- A job is pending or started. -/
def Runnable (w : World) (j : JobId) : Prop :=
  w.store.stateOf j = some .pending ∨ w.store.stateOf j = some .started

/-- Every waiting job has a runnable job behind it, through jobs that have not finished. -/
def NoneStranded (w : World) : Prop :=
  ∀ i, w.store.Waiting i →
    ∃ j, Relation.TransGen w.store.WaitsOnUnfinished j i ∧ j < i ∧ w.Runnable j

end World

/-- No row lists dependencies. -/
def Store.Chained (s : Store) : Prop := ∀ i r, s.get? i = some r → r.dependencies = []

section Chained

variable {s s' : Store} {i j : JobId} {r : Job}

/-- A chained row waits on its parent only. -/
theorem Store.Chained.waitsOn_iff (h : s.Chained) (hr : s.get? i = some r) :
    r.WaitsOn j ↔ r.parentId = some j := by
  simp [Job.WaitsOn, Job.dependsOn, h i r hr]

end Chained

namespace World

section Chains

variable {w : World} {e : Event} {s' : Store}

end Chains

end World
end JobWorker
