import JobWorker.Models.Cancel

/-!
# Exactness of the cancel cascade

The two walks of a cancellation (`job_worker/models/queue_job.py:616–688`) call each other
without a visited set. Each of their calls is a `Sweep`: it cancels exactly the waiting
rows that its seeds reach along both axes. Sweeps compose, and since every sweep either
takes a row out of `waiting` or changes nothing, the calls terminate on any graph.
-/

namespace JobWorker

open Reachability Fuel Relational

namespace Store

/-- Waiting rows that `seed` reaches along both axes. -/
def SweptBy (s : Store) (seed : JobId → Prop) : JobId → Prop :=
  Below seed (fun _ ↦ True) s.Waiting s.WaitsOn

/-- From `s` to `s'` exactly the waiting rows reached from `seed` have been cancelled. -/
structure Sweep (s s' : Store) (seed : JobId → Prop) : Prop where
  sameWiring : s.SameWiring s'
  sameCounts : s.SameCounts s'
  deactivates : s.Deactivates s'
  stateOf : ∀ i, s'.stateOf i = s.stateOf i ∨ s.Waiting i ∧ s'.stateOf i = some .cancelled
  waiting : ∀ i, s'.Waiting i ↔ s.Waiting i ∧ ¬ s.SweptBy seed i

section Sweep

variable {s s₁ s' : Store} {seed seed' : JobId → Prop} {i : JobId} {r : Job}

/-- Waiting is a state. -/
theorem waiting_iff_stateOf : s.Waiting i ↔ s.stateOf i = some .waiting := by
  simp only [Waiting, stateOf, Option.map_eq_some_iff, Job.isWaiting_iff]

/-- Nothing is swept from seeds that do not wait. -/
theorem Sweep.refl (h : ∀ i, seed i → ¬ s.Waiting i) : s.Sweep s seed where
  sameWiring := .refl s
  sameCounts := .refl s
  deactivates := .refl s
  stateOf _ := .inl rfl
  waiting i := by
    refine ⟨fun hw ↦ ⟨hw, fun hb ↦ ?_⟩, fun hw ↦ hw.1⟩
    exact hb.least (P := fun _ ↦ False) (fun a hs ha ↦ h a hs ha) fun _ _ hf _ _ _ ↦ hf

/-- A sweep may be described by any seeds that reach the same rows. -/
theorem Sweep.of_seeds (h : s.Sweep s' seed)
    (hs : ∀ a, seed a → s.Waiting a → s.SweptBy seed' a)
    (hs' : ∀ a, seed' a → s.Waiting a → s.SweptBy seed a) : s.Sweep s' seed' where
  sameWiring := h.sameWiring
  sameCounts := h.sameCounts
  deactivates := h.deactivates
  stateOf := h.stateOf
  waiting i := by
    rw [h.waiting, and_congr_right]
    exact fun _ ↦ not_congr ⟨fun hb ↦ hb.of_seeds hs, fun hb ↦ hb.of_seeds hs'⟩

/-- Two sweeps in a row are one sweep from all seeds. -/
theorem Sweep.trans (h : s.Sweep s₁ seed) (h' : s₁.Sweep s' seed') :
    s.Sweep s' fun i ↦ seed i ∨ seed' i where
  sameWiring := h.sameWiring.trans h'.sameWiring
  sameCounts := h.sameCounts.trans h'.sameCounts
  deactivates := h.deactivates.trans h'.deactivates
  stateOf i := by
    rcases h'.stateOf i with hs' | ⟨hw, hs'⟩
    · rw [hs']
      exact h.stateOf i
    · exact .inr ⟨((h.waiting i).mp hw).1, hs'⟩
  waiting i := by
    have hrest : s₁.SweptBy seed' i ↔ Below seed' (fun _ ↦ True)
        (fun a ↦ s.Waiting a ∧ ¬ s.SweptBy seed a) s.WaitsOn i :=
      below_congr (fun _ ↦ Iff.rfl) (fun _ ↦ Iff.rfl) h.waiting fun _ _ ↦ h.sameWiring.waitsOn
    rw [h'.waiting, h.waiting, hrest, SweptBy, SweptBy, below_compose, not_or, and_assoc]

/-- The state of a row after a sweep. -/
theorem Sweep.stateOf_eq (h : s.Sweep s' seed) (i : JobId) :
    (s.SweptBy seed i → s'.stateOf i = some .cancelled) ∧
      (¬ s.SweptBy seed i → s'.stateOf i = s.stateOf i) := by
  constructor
  · intro hb
    rcases h.stateOf i with hs | ⟨_, hs⟩
    · have hw : s'.Waiting i := waiting_iff_stateOf.mpr
        (hs.trans (waiting_iff_stateOf.mp hb.entered))
      exact absurd hb ((h.waiting i).mp hw).2
    · exact hs
  · intro hb
    rcases h.stateOf i with hs | ⟨hw, hs⟩
    · exact hs
    · have hw' := waiting_iff_stateOf.mp ((h.waiting i).mpr ⟨hw, hb⟩)
      rw [hs] at hw'
      cases hw'

end Sweep

/-! ### Counting the waiting rows -/

private theorem mem_waiting {s : Store} {i : JobId} :
    i ∈ s.jobs.select (fun _ r ↦ r.isWaiting) ↔ s.Waiting i := Table.mem_select

/-- Fewer waiting rows, a smaller count. -/
theorem waitingCount_lt {s s' : Store} (h : ∀ i, s'.Waiting i → s.Waiting i) {i : JobId}
    (hi : s.Waiting i) (hn : ¬ s'.Waiting i) : s'.waitingCount < s.waitingCount := by
  have hsub : (i :: s'.jobs.select fun _ r ↦ r.isWaiting).Subperm
      (s.jobs.select fun _ r ↦ r.isWaiting) := by
    refine List.subperm_of_subset ?_ fun a ha ↦ ?_
    · rw [List.nodup_cons, mem_waiting]
      exact ⟨hn, Table.nodup_select _ _⟩
    · rcases List.mem_cons.mp ha with rfl | ha
      · exact mem_waiting.mpr hi
      · exact mem_waiting.mpr (h a (mem_waiting.mp ha))
  exact hsub.length_le

/-- No more waiting rows, no larger count. -/
theorem waitingCount_le {s s' : Store} (h : ∀ i, s'.Waiting i → s.Waiting i) :
    s'.waitingCount ≤ s.waitingCount := by
  have hsub : (s'.jobs.select fun _ r ↦ r.isWaiting).Subperm
      (s.jobs.select fun _ r ↦ r.isWaiting) :=
    List.subperm_of_subset (Table.nodup_select _ _) fun a ha ↦
      mem_waiting.mpr (h a (mem_waiting.mp ha))
  exact hsub.length_le

/-! ### Single statements -/

/-- From `s` to `s'` exactly the waiting rows in `seed` have been cancelled. -/
structure Layer (s s' : Store) (seed : JobId → Prop) : Prop where
  sameWiring : s.SameWiring s'
  sameCounts : s.SameCounts s'
  deactivates : s.Deactivates s'
  stateOf : ∀ i, s'.stateOf i = s.stateOf i ∨ s.Waiting i ∧ s'.stateOf i = some .cancelled
  waiting : ∀ i, s'.Waiting i ↔ s.Waiting i ∧ ¬ seed i

section Layer

variable {now : Time} {s s₁ s' : Store} {seed extra : JobId → Prop} {i job : JobId}

/-- A statement, then a sweep from what waits on the rows that it cancelled, is a sweep. -/
theorem Layer.sweep (h : s.Layer s₁ seed)
    (h' : s₁.Sweep s' fun i ↦ extra i ∨ ∃ a, seed a ∧ s.Waiting a ∧ s.WaitsOn a i) :
    s.Sweep s' fun i ↦ seed i ∨ extra i where
  sameWiring := h.sameWiring.trans h'.sameWiring
  sameCounts := h.sameCounts.trans h'.sameCounts
  deactivates := h.deactivates.trans h'.deactivates
  stateOf i := by
    rcases h'.stateOf i with hs' | ⟨hw, hs'⟩
    · rw [hs']
      exact h.stateOf i
    · exact .inr ⟨((h.waiting i).mp hw).1, hs'⟩
  waiting i := by
    have hround : s.SweptBy (fun i ↦ seed i ∨ extra i) i ↔ (seed i ∧ s.Waiting i) ∨
        s₁.SweptBy (fun i ↦ extra i ∨ ∃ a, seed a ∧ s.Waiting a ∧ s.WaitsOn a i) i := by
      rw [SweptBy, below_round]
      apply or_congr_right
      apply below_congr
      · simp only [true_and, implies_true]
      · exact fun a ↦ Iff.rfl
      · exact fun a ↦ (h.waiting a).symm
      · exact fun a b ↦ h.sameWiring.waitsOn.symm
    rw [h'.waiting, h.waiting, hround]
    tauto

private theorem isWaitingDependent_iff {r : Job} :
    isWaitingDependent job r = true ↔ r.isWaiting = true ∧ r.dependsOn job = true :=
  Bool.and_eq_true_iff

/-- One statement of `_cancel_dependents` cancels the waiting dependents of its job. -/
theorem layer_cancelStatement (now : Time) (s : Store) (job : JobId) :
    s.Layer (s.cancelStatement now job) (s.DependsOn job) where
  sameWiring := sameColumn_update _ fun _ _ ↦ rfl
  sameCounts := sameColumn_update _ fun _ _ ↦ rfl
  deactivates := deactivates_update _
  stateOf i := by
    unfold stateOf cancelStatement
    rw [get?_update, Option.map_map]
    cases hr : s.get? i with
    | none => exact .inl rfl
    | some r =>
      by_cases hd : isWaitingDependent job r = true
      · refine .inr ⟨(waiting_iff hr).mpr (isWaitingDependent_iff.mp hd).1, ?_⟩
        simp [hd, cancelledByStatementRow]
      · exact .inl (by simp [hd])
  waiting i := by
    unfold Waiting cancelStatement
    rw [get?_update]
    cases hr : s.get? i with
    | none => simp
    | some r =>
      rw [dependsOn_iff hr]
      by_cases hd : isWaitingDependent job r = true
      · obtain ⟨_, hdep⟩ := isWaitingDependent_iff.mp hd
        simp [hd, hdep, cancelledByStatementRow, Job.isWaiting]
      · simp only [Option.map_some, hd, Bool.false_eq_true, if_false, Option.some.injEq,
          exists_eq_left']
        rw [isWaitingDependent_iff] at hd
        tauto

/-- The statement returns the rows that it cancels. -/
theorem mem_cancelReturning : i ∈ s.cancelReturning job ↔ s.Waiting i ∧ s.DependsOn job i := by
  simp only [cancelReturning, Table.mem_select, isWaitingDependent_iff]
  constructor
  · rintro ⟨r, hr, hw, hd⟩
    exact ⟨⟨r, hr, hw⟩, ⟨r, hr, hd⟩⟩
  · rintro ⟨⟨r, hr, hw⟩, hd⟩
    exact ⟨r, hr, hw, (dependsOn_iff hr).mp hd⟩

/-- All statements of `_cancel_dependents` cancel the waiting dependents of its jobs, and
return them. -/
theorem layer_cancelStatements (now : Time) (s : Store) (self : List JobId) :
    s.Layer (s.cancelStatements now self).1 (fun i ↦ ∃ j ∈ self, s.DependsOn j i) ∧
      ∀ i, i ∈ (s.cancelStatements now self).2 ↔
        s.Waiting i ∧ ∃ j ∈ self, s.DependsOn j i := by
  induction self generalizing s with
  | nil =>
    refine ⟨⟨.refl s, .refl s, .refl s, fun _ ↦ .inl rfl, fun i ↦ ?_⟩, fun i ↦ ?_⟩
    all_goals simp [cancelStatements]
  | cons job self ih =>
    have h := layer_cancelStatement now s job
    obtain ⟨hrest, hmem⟩ := ih (s.cancelStatement now job)
    have hdep (j i : JobId) : (s.cancelStatement now job).DependsOn j i ↔ s.DependsOn j i :=
      h.sameWiring.dependsOn
    refine ⟨⟨h.sameWiring.trans hrest.sameWiring, h.sameCounts.trans hrest.sameCounts,
      h.deactivates.trans hrest.deactivates, fun i ↦ ?_, fun i ↦ ?_⟩, fun i ↦ ?_⟩
    · rcases hrest.stateOf i with hs | ⟨hw, hs⟩
      · rw [cancelStatements, hs]
        exact h.stateOf i
      · exact .inr ⟨((h.waiting i).mp hw).1, hs⟩
    · rw [cancelStatements, hrest.waiting, h.waiting]
      simp only [hdep, List.exists_mem_cons_iff, not_or, and_assoc]
    · rw [cancelStatements, List.mem_append, hmem, mem_cancelReturning, h.waiting]
      simp only [hdep, List.exists_mem_cons_iff]
      tauto

/-- A queued job, waiting or already cancelled, is cancelled. -/
theorem layer_cancelQueued (now : Time)
    (h : s.Waiting job ∨ s.stateOf job = some .cancelled) :
    s.Layer (s.cancelQueued now job) (· = job) where
  sameWiring := sameColumn_update _ fun _ _ ↦ rfl
  sameCounts := sameColumn_update _ fun _ _ ↦ rfl
  deactivates := deactivates_update _
  stateOf i := by
    have hget : (s.cancelQueued now job).get? i = (s.get? i).map fun r ↦
        if (i == job) = true then cancelledRow now r else r := get?_update _ _ _ _ _
    by_cases hi : i = job
    · subst hi
      have hs : (s.cancelQueued now i).stateOf i = some .cancelled := by
        have hrow : ∃ r, s.get? i = some r := by
          rcases h with ⟨r, hr, _⟩ | hs
          · exact ⟨r, hr⟩
          · obtain ⟨r, hr, _⟩ := Option.map_eq_some_iff.mp hs
            exact ⟨r, hr⟩
        obtain ⟨r, hr⟩ := hrow
        rw [stateOf, hget, hr]
        simp [cancelledRow]
      exact h.symm.imp (fun hc ↦ hs.trans hc.symm) fun hw ↦ ⟨hw, hs⟩
    · exact .inl (by rw [stateOf, hget]; simp [hi, stateOf])
  waiting i := by
    have hget : (s.cancelQueued now job).get? i = (s.get? i).map fun r ↦
        if (i == job) = true then cancelledRow now r else r := get?_update _ _ _ _ _
    rw [Waiting, hget]
    by_cases hi : i = job
    · simp [hi, cancelledRow, Job.isWaiting]
    · simp [hi, Waiting]

/-- The waiting children of a job. -/
theorem mem_waitingChildren : i ∈ s.waitingChildren job ↔ s.Waiting i ∧ s.ChildOf job i := by
  simp only [waitingChildren, Table.mem_selectBy, isWaitingChild_iff]
  constructor
  · rintro ⟨r, hr, hp, hw⟩
    exact ⟨⟨r, hr, hw⟩, ⟨r, hr, hp⟩⟩
  · rintro ⟨⟨r, hr, hw⟩, hc⟩
    exact ⟨r, hr, (childOf_iff hr).mp hc, hw⟩

end Layer

end Store

/-! ### Termination and effect of the walks -/

/-- The three mutual functions return from `s`, each with the effect of a sweep. -/
structure CancelWalks (now : Time) (s : Store) : Prop where
  dependents : ∀ self, ∃ s', Computes (fun fuel ↦ cancelDependents now fuel s self) s' ∧
    s.Sweep s' fun i ↦ ∃ j ∈ self, s.DependsOn j i
  queue : ∀ queue, (∀ q ∈ queue, s.Waiting q ∨ s.stateOf q = some .cancelled) →
    ∃ s', Computes (fun fuel ↦ cancelQueue now fuel s queue) s' ∧
      s.Sweep s' fun i ↦ i ∈ queue ∨ ∃ q ∈ queue, s.WaitsOn q i
  children : ∀ self,
    ∃ s', Computes (fun fuel ↦ cascadeChildrenOnParentCancelled now fuel s self) s' ∧
      s.Sweep s' (s.ChildOf self)

section Walks

variable {now : Time} {n : Nat} {s s₁ s' : Store} {seed : JobId → Prop}

private theorem Store.Sweep.waiting_mono (h : s.Sweep s' seed) (i : JobId)
    (hw : s'.Waiting i) : s.Waiting i := ((h.waiting i).mp hw).1

/-- The loop over `newly` on the parent axis. -/
theorem CancelWalks.foldlM (ih : ∀ s : Store, s.waitingCount < n → CancelWalks now s)
    (hs : s.waitingCount < n) (ids : List JobId) :
    ∃ s', Computes (fun fuel ↦ ids.foldlM (fun s job ↦
      cascadeChildrenOnParentCancelled now fuel s job) s) s' ∧
      s.Sweep s' fun i ↦ ∃ j ∈ ids, s.ChildOf j i := by
  induction ids generalizing s with
  | nil => exact ⟨s, computes_some s, .refl (by simp)⟩
  | cons job ids ihl =>
    obtain ⟨s₁, h₁, hsweep₁⟩ := (ih s hs).children job
    have hle := Store.waitingCount_le hsweep₁.waiting_mono
    obtain ⟨s', h', hsweep'⟩ := ihl (lt_of_le_of_lt hle hs)
    refine ⟨s', h₁.foldlM_cons h', (hsweep₁.trans hsweep').of_seeds ?_ ?_⟩
    · rintro a (hc | ⟨j, hj, hc⟩) ha
      · exact .seed ⟨job, List.mem_cons_self, hc⟩ ha
      · exact .seed ⟨j, List.mem_cons_of_mem _ hj, hsweep₁.sameWiring.childOf.mp hc⟩ ha
    · rintro a ⟨j, hj, hc⟩ ha
      rcases List.mem_cons.mp hj with rfl | hj
      · exact .seed (.inl hc) ha
      · exact .seed (.inr ⟨j, hj, hsweep₁.sameWiring.childOf.mpr hc⟩) ha

private theorem dependents_of_smaller
    (ih : ∀ s : Store, s.waitingCount < n → CancelWalks now s) (hs : s.waitingCount ≤ n)
    (self : List JobId) :
    ∃ s', Computes (fun fuel ↦ cancelDependents now fuel s self) s' ∧
      s.Sweep s' fun i ↦ ∃ j ∈ self, s.DependsOn j i := by
  obtain ⟨hlayer, hmem⟩ := Store.layer_cancelStatements now s self
  by_cases hids : (s.cancelStatements now self).2 = []
  · -- Nothing was returned, so no row has been cancelled.
    have hnone (i : JobId) (hd : ∃ j ∈ self, s.DependsOn j i) : ¬ s.Waiting i := fun hw ↦ by
      have := (hmem i).mpr ⟨hw, hd⟩
      rw [hids] at this
      cases this
    have hrefl : (s.cancelStatements now self).1.Sweep (s.cancelStatements now self).1
        fun i ↦ False ∨ ∃ a, (∃ j ∈ self, s.DependsOn j a) ∧ s.Waiting a ∧ s.WaitsOn a i :=
      .refl fun i h ↦ by
        obtain ⟨a, hd, hw, _⟩ := h.resolve_left id
        exact absurd hw (hnone a hd)
    refine ⟨_, (computes_some (s.cancelStatements now self).1).succ fun fuel ↦ ?_, ?_⟩
    · simp [cancelDependents, hids]
    · simpa using hlayer.sweep hrefl
  · obtain ⟨a, ha⟩ := List.exists_mem_of_ne_nil _ hids
    have hlt : (s.cancelStatements now self).1.waitingCount < n := by
      obtain ⟨hw, hd⟩ := (hmem a).mp ha
      refine lt_of_lt_of_le ?_ hs
      exact Store.waitingCount_lt (fun i hi ↦ ((hlayer.waiting i).mp hi).1) hw
        fun hw' ↦ ((hlayer.waiting a).mp hw').2 hd
    obtain ⟨s₁, h₁, hsweep₁⟩ :=
      CancelWalks.foldlM ih hlt (s.cancelStatements now self).2
    have hle := Store.waitingCount_le hsweep₁.waiting_mono
    obtain ⟨s', h', hsweep'⟩ :=
      (ih s₁ (lt_of_le_of_lt hle hlt)).dependents (s.cancelStatements now self).2
    have hboth := Computes.bind (g := fun fuel s₁ ↦ cancelDependents now fuel s₁
      (s.cancelStatements now self).2) h₁ h'
    refine ⟨s', hboth.succ fun fuel ↦ ?_, ?_⟩
    · simp [cancelDependents, hids]
    · have hseed : (s.cancelStatements now self).1.Sweep s' fun i ↦ False ∨
          ∃ a, (∃ j ∈ self, s.DependsOn j a) ∧ s.Waiting a ∧ s.WaitsOn a i := by
        refine (hsweep₁.trans hsweep').of_seeds ?_ ?_
        · rintro b (⟨a, ha, hc⟩ | ⟨a, ha, hd⟩) hb
          · obtain ⟨hw, hda⟩ := (hmem a).mp ha
            refine .seed (.inr ⟨a, hda, hw, ?_⟩) hb
            exact Store.waitsOn_iff_childOf_or_dependsOn.mpr
              (.inl (hlayer.sameWiring.childOf.mp hc))
          · obtain ⟨hw, hda⟩ := (hmem a).mp ha
            refine .seed (.inr ⟨a, hda, hw, ?_⟩) hb
            exact Store.waitsOn_iff_childOf_or_dependsOn.mpr (.inr
              (hlayer.sameWiring.dependsOn.mp (hsweep₁.sameWiring.dependsOn.mp hd)))
        · rintro b (hf | ⟨a, hda, hw, hwait⟩) hb
          · cases hf
          have ha := (hmem a).mpr ⟨hw, hda⟩
          rcases Store.waitsOn_iff_childOf_or_dependsOn.mp hwait with hc | hd
          · exact .seed (.inl ⟨a, ha, hlayer.sameWiring.childOf.mpr hc⟩) hb
          · exact .seed (.inr ⟨a, ha, hsweep₁.sameWiring.dependsOn.mpr
              (hlayer.sameWiring.dependsOn.mpr hd)⟩) hb
      simpa using hlayer.sweep hseed

/-- Members of a queue that no longer wait. -/
private def idle (s : Store) (queue : List JobId) : Nat :=
  queue.countP fun q ↦ s.stateOf q ≠ some .waiting

private theorem idle_cons_waiting {job : JobId} {queue : List JobId} (h : ¬ s.Waiting job) :
    idle s (job :: queue) = idle s queue + 1 := by
  rw [Store.waiting_iff_stateOf] at h
  simp [idle, h]

private theorem idle_append_waiting {queue children : List JobId}
    (h : ∀ q ∈ children, s.Waiting q) : idle s (queue ++ children) = idle s queue := by
  have hz : idle s children = 0 := by
    rw [idle, List.countP_eq_zero]
    intro q hq
    simpa using Store.waiting_iff_stateOf.mp (h q hq)
  have happend : idle s (queue ++ children) = idle s queue + idle s children :=
    List.countP_append
  rw [happend, hz, Nat.add_zero]

private theorem idle_congr {queue : List JobId} (h : ∀ q, s₁.Waiting q ↔ s.Waiting q) :
    idle s₁ queue = idle s queue := by
  unfold idle
  congr 1
  funext q
  rw [decide_eq_decide, not_iff_not, ← Store.waiting_iff_stateOf, h,
    Store.waiting_iff_stateOf]

private theorem Store.Sweep.cancelled_or_waiting (h : s.Sweep s' seed) {q : JobId}
    (hq : s.Waiting q ∨ s.stateOf q = some .cancelled) :
    s'.Waiting q ∨ s'.stateOf q = some .cancelled := by
  rcases h.stateOf q with hs | ⟨_, hs⟩
  · rw [Store.waiting_iff_stateOf] at hq ⊢
    rwa [hs]
  · exact .inr hs

/-- One round of the queue: the job itself, its dependents, then the longer queue. -/
private theorem queue_round {job : JobId} {queue : List JobId} {s₂ : Store}
    (hlayer : s.Layer s₁ (· = job)) (h₂ : s₁.Sweep s₂ fun i ↦ ∃ j ∈ [job], s₁.DependsOn j i)
    (h' : s₂.Sweep s' fun i ↦ i ∈ queue ++ s₁.waitingChildren job ∨
      ∃ q ∈ queue ++ s₁.waitingChildren job, s₂.WaitsOn q i) :
    s.Sweep s' fun i ↦ i ∈ job :: queue ∨ ∃ q ∈ job :: queue, s.WaitsOn q i := by
  have hsame₁ := hlayer.sameWiring
  have hsame₂ := hsame₁.trans h₂.sameWiring
  have hseeds : s₁.Sweep s' fun i ↦ (i ∈ queue ∨ ∃ q ∈ job :: queue, s.WaitsOn q i) ∨
      ∃ a, a = job ∧ s.Waiting a ∧ s.WaitsOn a i := by
    refine (h₂.trans h').of_seeds (fun a hseed ha ↦ ?_) (fun a hseed ha ↦ ?_)
    · rcases hseed with ⟨j, hj, hd⟩ | hmem | ⟨q, hq, hwait⟩
      · rw [List.mem_singleton] at hj
        subst hj
        refine .seed (.inl (.inr ⟨j, List.mem_cons_self, ?_⟩)) ha
        exact Store.waitsOn_iff_childOf_or_dependsOn.mpr (.inr (hsame₁.dependsOn.mp hd))
      · rcases List.mem_append.mp hmem with hq | hchild
        · exact .seed (.inl (.inl hq)) ha
        · obtain ⟨_, hc⟩ := Store.mem_waitingChildren.mp hchild
          refine .seed (.inl (.inr ⟨job, List.mem_cons_self, ?_⟩)) ha
          exact Store.waitsOn_iff_childOf_or_dependsOn.mpr (.inl (hsame₁.childOf.mp hc))
      · rcases List.mem_append.mp hq with hq | hchild
        · exact .seed (.inl (.inr ⟨q, List.mem_cons_of_mem _ hq, hsame₂.waitsOn.mp hwait⟩)) ha
        · -- Rows behind a waiting child are reached through that child.
          obtain ⟨hw, hc⟩ := Store.mem_waitingChildren.mp hchild
          refine .step (.seed (.inl (.inr ⟨job, List.mem_cons_self, ?_⟩)) hw) trivial
            (h₂.sameWiring.waitsOn.mp hwait) ha
          exact Store.waitsOn_iff_childOf_or_dependsOn.mpr (.inl (hsame₁.childOf.mp hc))
    · have behind (hwait : s.WaitsOn job a) : s₁.SweptBy (fun i ↦
          (∃ j ∈ [job], s₁.DependsOn j i) ∨ i ∈ queue ++ s₁.waitingChildren job ∨
            ∃ q ∈ queue ++ s₁.waitingChildren job, s₂.WaitsOn q i) a := by
        rcases Store.waitsOn_iff_childOf_or_dependsOn.mp hwait with hc | hd
        · refine .seed (.inr (.inl (List.mem_append_right _ ?_))) ha
          exact Store.mem_waitingChildren.mpr ⟨ha, hsame₁.childOf.mpr hc⟩
        · exact .seed (.inl ⟨job, List.mem_singleton_self job, hsame₁.dependsOn.mpr hd⟩) ha
      rcases hseed with (hq | ⟨q, hq, hwait⟩) | ⟨_, rfl, _, hwait⟩
      · exact .seed (.inr (.inl (List.mem_append_left _ hq))) ha
      · rcases List.mem_cons.mp hq with rfl | hq
        · exact behind hwait
        · exact .seed (.inr (.inr ⟨q, List.mem_append_left _ hq,
            hsame₂.waitsOn.mpr hwait⟩)) ha
      · exact behind hwait
  refine (hlayer.sweep hseeds).of_seeds (fun a hseed ha ↦ ?_) (fun a hseed ha ↦ ?_)
  · rcases hseed with rfl | hq | hwait
    · exact .seed (.inl List.mem_cons_self) ha
    · exact .seed (.inl (List.mem_cons_of_mem _ hq)) ha
    · exact .seed (.inr hwait) ha
  · rcases hseed with hq | hwait
    · rcases List.mem_cons.mp hq with rfl | hq
      · exact .seed (.inl rfl) ha
      · exact .seed (.inr (.inl hq)) ha
    · exact .seed (.inr (.inr hwait)) ha

/-- The loop returns: a member that waits lowers the count of waiting rows, and while
none is taken out, every round uses up a member that no longer waits. -/
private theorem queue_of_smaller (ih : ∀ s : Store, s.waitingCount < n → CancelWalks now s)
    (hs : s.waitingCount ≤ n) (queue : List JobId)
    (hq : ∀ q ∈ queue, s.Waiting q ∨ s.stateOf q = some .cancelled) :
    ∃ s', Computes (fun fuel ↦ cancelQueue now fuel s queue) s' ∧
      s.Sweep s' fun i ↦ i ∈ queue ∨ ∃ q ∈ queue, s.WaitsOn q i := by
  induction hk : idle s queue using Nat.strong_induction_on generalizing s queue with
  | _ k ihk =>
    cases queue with
    | nil =>
      refine ⟨s, (computes_some s).succ fun fuel ↦ ?_, .refl (by simp)⟩
      rw [cancelQueue]
    | cons job queue =>
      have hlayer := Store.layer_cancelQueued now (hq job List.mem_cons_self)
      have hle₁ := Store.waitingCount_le fun i hi ↦ ((hlayer.waiting i).mp hi).1
      obtain ⟨s₂, h₂, hsweep₂⟩ := dependents_of_smaller ih (hle₁.trans hs) [job]
      have hle₂ := Store.waitingCount_le hsweep₂.waiting_mono
      have hqueue (q : JobId) (hmem : q ∈ queue ++
          (s.cancelQueued now job).waitingChildren job) :
          s₂.Waiting q ∨ s₂.stateOf q = some .cancelled := by
        refine hsweep₂.cancelled_or_waiting ?_
        rcases List.mem_append.mp hmem with hmem | hmem
        · rcases hlayer.stateOf q with hst | ⟨_, hst⟩
          · rw [Store.waiting_iff_stateOf, hst, ← Store.waiting_iff_stateOf]
            exact hq q (List.mem_cons_of_mem _ hmem)
          · exact .inr hst
        · exact .inl (Store.mem_waitingChildren.mp hmem).1
      obtain ⟨s', h', hsweep'⟩ : ∃ s', Computes (fun fuel ↦ cancelQueue now fuel s₂
          (queue ++ (s.cancelQueued now job).waitingChildren job)) s' ∧
          s₂.Sweep s' fun i ↦ i ∈ queue ++ (s.cancelQueued now job).waitingChildren job ∨
            ∃ q ∈ queue ++ (s.cancelQueued now job).waitingChildren job, s₂.WaitsOn q i := by
        by_cases hlt : s₂.waitingCount < n
        · exact (ih s₂ hlt).queue _ hqueue
        · -- No row has left `waiting`, so `job` itself was one that no longer waits.
          have hsame (i : JobId) : s.Waiting i → s₂.Waiting i := by
            intro hi
            by_contra hn
            have hmono (a : JobId) (ha : s₂.Waiting a) : s.Waiting a :=
              ((hlayer.waiting a).mp (hsweep₂.waiting_mono a ha)).1
            exact hlt (lt_of_lt_of_le (Store.waitingCount_lt hmono hi hn) hs)
          have hjob : ¬ s.Waiting job := fun hw ↦
            ((hlayer.waiting job).mp (hsweep₂.waiting_mono job (hsame job hw))).2 rfl
          have hiff (q : JobId) : s₂.Waiting q ↔ s.Waiting q :=
            ⟨fun hw ↦ ((hlayer.waiting q).mp (hsweep₂.waiting_mono q hw)).1, hsame q⟩
          have hchildren : ∀ q ∈ (s.cancelQueued now job).waitingChildren job, s₂.Waiting q :=
            fun q hmem ↦ (hiff q).mpr
              ((hlayer.waiting q).mp (Store.mem_waitingChildren.mp hmem).1).1
          refine ihk _ ?_ (hle₂.trans (hle₁.trans hs)) _ hqueue rfl
          rw [idle_append_waiting hchildren, idle_congr hiff, ← hk, idle_cons_waiting hjob]
          exact Nat.lt_succ_self _
      have hboth := Computes.bind (g := fun fuel s₂ ↦ cancelQueue now fuel s₂
        (queue ++ (s.cancelQueued now job).waitingChildren job)) h₂ h'
      refine ⟨s', hboth.succ fun fuel ↦ ?_, queue_round hlayer hsweep₂ hsweep'⟩
      rw [cancelQueue]

/-- The walks of a cancellation return from every store, each with the effect of a
sweep. -/
theorem cancelWalks (now : Time) (s : Store) : CancelWalks now s := by
  induction hn : s.waitingCount using Nat.strong_induction_on generalizing s with
  | _ n ih =>
    have ih' : ∀ s : Store, s.waitingCount < n → CancelWalks now s :=
      fun s hlt ↦ ih _ hlt s rfl
    refine ⟨dependents_of_smaller ih' hn.le, queue_of_smaller ih' hn.le, fun self ↦ ?_⟩
    obtain ⟨s', h', hsweep⟩ := queue_of_smaller ih' hn.le (s.waitingChildren self)
      fun q hq ↦ .inl (Store.mem_waitingChildren.mp hq).1
    refine ⟨s', h'.succ fun fuel ↦ by rw [cascadeChildrenOnParentCancelled],
      hsweep.of_seeds ?_ fun a hc ha ↦ ?_⟩
    · rintro a (hmem | ⟨q, hq, hwait⟩) ha
      · exact .seed (Store.mem_waitingChildren.mp hmem).2 ha
      · obtain ⟨hw, hc⟩ := Store.mem_waitingChildren.mp hq
        exact .step (.seed hc hw) trivial hwait ha
    · exact .seed (.inl (Store.mem_waitingChildren.mpr ⟨ha, hc⟩)) ha

end Walks

/-! ### The button -/

/-- The waiting jobs that the cancellation of `self` has to sweep: the least set that
holds every waiting job whose parent or dependency is in it or is a member of `self` that
was not terminal. -/
def Store.CancelClosure (s : Store) (self : List JobId) : JobId → Prop :=
  s.SweptBy fun i ↦ ∃ j ∈ self, (∃ r, s.get? j = some r ∧ r.state.isTerminal = false) ∧
    s.WaitsOn j i

/-- The cancelled jobs are the selected ones and their closure, and no other row's state
changes. -/
structure CancelExact (s s' : Store) (self : List JobId) : Prop where
  rows : ∀ i, s.get? i = none → s'.get? i = none
  cancelled : ∀ i r, s.get? i = some r → i ∈ self ∨ s.CancelClosure self i →
    s'.stateOf i = some .cancelled
  frame : ∀ i r, s.get? i = some r → i ∉ self → ¬ s.CancelClosure self i →
    s'.stateOf i = some r.state
  onlyCancels : ∀ i, s'.stateOf i = s.stateOf i ∨ s'.stateOf i = some .cancelled

section Button

variable {now : Time} {s s₁ s' : Store} {self : List JobId} {i : JobId} {r : Job}

private theorem mem_cascading {j : JobId} :
    j ∈ self.filter (fun job ↦ (s.get? job).any fun r ↦ !r.state.isTerminal) ↔
      j ∈ self ∧ ∃ r, s.get? j = some r ∧ r.state.isTerminal = false := by
  rw [List.mem_filter, Option.any_eq_true]
  simp only [Bool.not_eq_true']

private theorem waiting_writeEach_cancelled
    (h : s.writeEach (cancelledRow now) (fun _ ↦ rfl) self = .ok s₁) (i : JobId) :
    s₁.Waiting i ↔ s.Waiting i ∧ i ∉ self := by
  by_cases hi : i ∈ self
  · simp only [hi, not_true_eq_false, and_false, iff_false]
    intro hw
    cases hr : s.get? i with
    | none =>
      obtain ⟨r, hr₁, _⟩ := hw
      have hsame : s.SameWiring s₁ := Store.sameColumn_writeEach h fun _ ↦ rfl
      rw [hsame.none hr] at hr₁
      cases hr₁
    | some r =>
      rw [Store.waiting_iff_stateOf, Store.stateOf_writeEach h (fun _ ↦ rfl) hi hr] at hw
      cases hw
  · simp only [hi, not_false_eq_true, and_true, Store.Waiting, Store.get?_writeEach h hi]

/-- The sweep behind the writes reaches the rows of the closure that are not selected. -/
private theorem sweptBy_iff_cancelClosure
    (h : s.writeEach (cancelledRow now) (fun _ ↦ rfl) self = .ok s₁) (hi : i ∉ self) :
    s₁.SweptBy (fun i ↦ ∃ j ∈ self.filter (fun job ↦ (s.get? job).any fun r ↦
      !r.state.isTerminal), s₁.WaitsOn j i) i ↔ s.CancelClosure self i := by
  have hsame : s.SameWiring s₁ := Store.sameColumn_writeEach h fun _ ↦ rfl
  constructor
  · refine fun hb ↦ hb.mono (fun a ha ↦ ?_) (fun _ _ ht ↦ ht) (fun a ha ↦ ?_) fun a b he ↦ ?_
    · obtain ⟨j, hj, hwait⟩ := ha
      obtain ⟨hmem, hrow⟩ := mem_cascading.mp hj
      exact ⟨j, hmem, hrow, hsame.waitsOn.mp hwait⟩
    · exact ((waiting_writeEach_cancelled h a).mp ha).1
    · exact hsame.waitsOn.mp he
  · -- A path through a selected waiting job starts afresh behind that job.
    intro hb
    have hall := hb.least (P := fun b ↦ s.Waiting b ∧ (b ∈ self ∨ s₁.SweptBy (fun i ↦
      ∃ j ∈ self.filter (fun job ↦ (s.get? job).any fun r ↦ !r.state.isTerminal),
        s₁.WaitsOn j i) b)) ?_ ?_
    · exact hall.2.resolve_left hi
    · rintro b ⟨j, hj, hrow, hwait⟩ hb
      refine ⟨hb, ?_⟩
      by_cases hmem : b ∈ self
      · exact .inl hmem
      · exact .inr (.seed ⟨j, mem_cascading.mpr ⟨hj, hrow⟩, hsame.waitsOn.mpr hwait⟩
          ((waiting_writeEach_cancelled h b).mpr ⟨hb, hmem⟩))
    · rintro a b ⟨⟨r, hr, hw⟩, ha⟩ _ hwait hb
      refine ⟨hb, ?_⟩
      by_cases hmem : b ∈ self
      · exact .inl hmem
      have hb₁ := (waiting_writeEach_cancelled h b).mpr ⟨hb, hmem⟩
      have hedge := hsame.waitsOn.mpr hwait
      rcases ha with ha | ha
      · refine .inr (.seed ⟨a, mem_cascading.mpr ⟨ha, r, hr, ?_⟩, hedge⟩ hb₁)
        rw [Job.isWaiting_iff.mp hw]
        rfl
      · exact .inr (.step ha trivial hedge hb₁)

/-- Behind its writes the button returns, with the effect of one sweep. -/
private theorem buttonCancelled_computes
    (h : s.writeEach (cancelledRow now) (fun _ ↦ rfl) self = .ok s₁) :
    ∃ s', Computes (fun fuel ↦ buttonCancelled now fuel s self) (.ok s') ∧
      s₁.Sweep s' fun i ↦ ∃ j ∈ self.filter (fun job ↦ (s.get? job).any fun r ↦
        !r.state.isTerminal), s₁.WaitsOn j i := by
  obtain ⟨s₂, h₂, hsweep₂⟩ := CancelWalks.foldlM (fun s _ ↦ cancelWalks now s)
    (Nat.lt_succ_self s₁.waitingCount)
    (self.filter fun job ↦ (s.get? job).any fun r ↦ !r.state.isTerminal)
  obtain ⟨s', h', hsweep'⟩ := (cancelWalks now s₂).dependents
    (self.filter fun job ↦ (s.get? job).any fun r ↦ !r.state.isTerminal)
  have hlast := Computes.bind (g := fun _ s ↦ some (Except.ok s : Except OrmError Store)) h'
    (computes_some (Except.ok s'))
  have hboth := Computes.bind (g := fun fuel s₂ ↦ cancelDependents now fuel s₂
    (self.filter fun job ↦ (s.get? job).any fun r ↦ !r.state.isTerminal) >>= fun s ↦
      some (Except.ok s : Except OrmError Store)) h₂ hlast
  refine ⟨s', ?_, (hsweep₂.trans hsweep').of_seeds (fun a hseed ha ↦ ?_) (fun a hseed ha ↦ ?_)⟩
  · simp only [buttonCancelled, h]
    exact hboth
  · rcases hseed with ⟨j, hj, hc⟩ | ⟨j, hj, hd⟩
    · exact .seed ⟨j, hj, Store.waitsOn_iff_childOf_or_dependsOn.mpr (.inl hc)⟩ ha
    · exact .seed ⟨j, hj, Store.waitsOn_iff_childOf_or_dependsOn.mpr
        (.inr (hsweep₂.sameWiring.dependsOn.mp hd))⟩ ha
  · obtain ⟨j, hj, hwait⟩ := hseed
    rcases Store.waitsOn_iff_childOf_or_dependsOn.mp hwait with hc | hd
    · exact .seed (.inl ⟨j, hj, hc⟩) ha
    · exact .seed (.inr ⟨j, hj, hsweep₂.sameWiring.dependsOn.mpr hd⟩) ha

/-- A call of the button that returns has written the selected jobs and swept the rest. -/
theorem sweep_of_buttonCancelled
    (h : Computes (fun fuel ↦ buttonCancelled now fuel s self) (.ok s')) :
    ∃ s₁ seed, s.writeEach (cancelledRow now) (fun _ ↦ rfl) self = .ok s₁ ∧
      s₁.Sweep s' seed := by
  cases hw : s.writeEach (cancelledRow now) (fun _ ↦ rfl) self with
  | error e =>
    obtain ⟨N, hN⟩ := h
    have hret := hN N le_rfl
    simp [buttonCancelled, hw] at hret
  | ok s₁ =>
    obtain ⟨s'', h'', hsweep⟩ := buttonCancelled_computes hw
    cases h.unique h''
    exact ⟨s₁, _, rfl, hsweep⟩

/-- Behind its writes the button cancels exactly the selected jobs and their closure. -/
private theorem exists_cancelExact
    (hw : s.writeEach (cancelledRow now) (fun _ ↦ rfl) self = .ok s₁) :
    ∃ s', Computes (fun fuel ↦ buttonCancelled now fuel s self) (.ok s') ∧
      CancelExact s s' self := by
  obtain ⟨s', h', hsweep⟩ := buttonCancelled_computes hw
  have hsame : s.SameWiring s₁ := Store.sameColumn_writeEach hw fun _ ↦ rfl
  have hselected {i : JobId} {r : Job} (hi : i ∈ self) (hr : s.get? i = some r) :
      s'.stateOf i = some .cancelled := by
    have hs₁ := Store.stateOf_writeEach hw (fun _ ↦ rfl) hi hr
    rcases hsweep.stateOf i with hs | ⟨_, hs⟩
    · exact hs.trans hs₁
    · exact hs
  have houtside {i : JobId} (hi : i ∉ self) : s₁.stateOf i = s.stateOf i := by
    rw [Store.stateOf, Store.get?_writeEach hw hi, Store.stateOf]
  refine ⟨s', h', fun i hr ↦ (hsame.trans hsweep.sameWiring).none hr, fun i r hr hin ↦ ?_,
    fun i r hr hi hn ↦ ?_, fun i ↦ ?_⟩
  · by_cases hi : i ∈ self
    · exact hselected hi hr
    · exact (hsweep.stateOf_eq i).1
        ((sweptBy_iff_cancelClosure hw hi).mpr (hin.resolve_left hi))
  · rw [(hsweep.stateOf_eq i).2 fun hb ↦ hn ((sweptBy_iff_cancelClosure hw hi).mp hb),
      houtside hi, Store.stateOf, hr]
    rfl
  · by_cases hi : i ∈ self
    · cases hr : s.get? i with
      | none =>
        refine .inl ?_
        rw [Store.stateOf, (hsame.trans hsweep.sameWiring).none hr, Store.stateOf, hr]
      | some r => exact .inr (hselected hi hr)
    · rcases hsweep.stateOf i with hs | ⟨_, hs⟩
      · exact .inl (hs.trans (houtside hi))
      · exact .inr hs

/-- A call of the button that returns is exact and keeps the wiring. -/
theorem cancelExact_of_buttonCancelled
    (h : Computes (fun fuel ↦ buttonCancelled now fuel s self) (.ok s')) :
    CancelExact s s' self ∧ s.SameWiring s' := by
  obtain ⟨s₁, _, hw, hsweep⟩ := sweep_of_buttonCancelled h
  obtain ⟨s₂, h₂, hexact⟩ := exists_cancelExact hw
  have heq := h.unique h₂
  cases heq
  exact ⟨hexact, (Store.sameColumn_writeEach hw fun _ ↦ rfl).trans hsweep.sameWiring⟩

end Button

/-- `button_cancelled` returns with exactly the selected jobs and their closure cancelled,
exactly when every other active job that holds the identity key of a selected one is
selected before it. -/
theorem cancelExact_iff (now : Time) (s : Store) (self : List JobId) :
    (∃ s', Computes (fun fuel ↦ buttonCancelled now fuel s self) (.ok s') ∧
      CancelExact s s' self) ↔ s.KeysFree self := by
  have hfree : (∃ s₁, s.writeEach (cancelledRow now) (fun _ ↦ rfl) self = .ok s₁) ↔
      s.KeysFree self := Store.writeEach_isOk_iff (fun _ ↦ rfl) fun _ ↦ rfl
  rw [← hfree]
  constructor
  · rintro ⟨s', h, _⟩
    obtain ⟨s₁, _, hw, _⟩ := sweep_of_buttonCancelled h
    exact ⟨s₁, hw⟩
  · rintro ⟨s₁, hw⟩
    exact exists_cancelExact hw

/-- A done job whose identity key a pending job has taken over. -/
def keyTakenOver : Store := .ofRows [
  { payload := .ping, state := .done, identityKey := some ⟨"key", by decide⟩ },
  { payload := .ping, identityKey := some ⟨"key", by decide⟩ }]

/-- The done job cannot be cancelled: the write of its state is refused. -/
theorem not_cancelExact_keyTakenOver :
    ¬ ∃ s', Computes (fun fuel ↦ buttonCancelled 0 fuel keyTakenOver [1]) (.ok s') ∧
      CancelExact keyTakenOver s' [1] := by
  rintro ⟨s', ⟨N, hN⟩, _⟩
  have h := hN N le_rfl
  have hrefused : (keyTakenOver.writeEach (cancelledRow 0) (fun _ ↦ rfl) [1]).toOption.isNone =
      true := by decide +kernel
  unfold buttonCancelled at h
  cases hw : keyTakenOver.writeEach (cancelledRow 0) (fun _ ↦ rfl) [1] with
  | error e => simp [hw] at h
  | ok s₁ => rw [hw] at hrefused; cases hrefused

end JobWorker
