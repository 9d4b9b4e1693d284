import JobWorker.Base.Reachability
import JobWorker.Models.Store

/-!
# Cascades to waiting dependents

The cascades of a success and of a failure on both axes:
`_release_dependents`, `_fail_dependents`, `_cascade_children_on_parent_success` and
`_cascade_children_on_parent_failure`, `job_worker/models/queue_job.py:551–614,743–803`.
The two walks over `child_ids` are one breadth-first loop with a rule for what is written
on a waiting child and whether the walk goes on below it. A waiting row is active, so the
identity constraint of these ORM writes never finds a duplicate
(`Store.identityKeyDuplicate_of_active`).
-/

namespace JobWorker

open Relational Reachability

/-- `scheduled_at ASC NULLS LAST`, strictly before. -/
def scheduledBefore : Option Time → Option Time → Prop
  | some a, some b => a < b
  | some _, none => True
  | none, _ => False

instance : DecidableRel scheduledBefore := fun a b ↦ by
  cases a <;> cases b <;> unfold scheduledBefore <;> infer_instance

/-- `_order = "priority ASC, scheduled_at ASC NULLS LAST, id ASC"`;
`models/queue_job.py:21`. -/
def RowOrder (a b : JobId × Job) : Prop :=
  a.2.priority < b.2.priority ∨ a.2.priority = b.2.priority ∧
    (scheduledBefore a.2.scheduledAt b.2.scheduledAt ∨
      a.2.scheduledAt = b.2.scheduledAt ∧ a.1 ≤ b.1)

instance : DecidableRel RowOrder := fun a b ↦ by unfold RowOrder; infer_instance

/-- What a walk writes on a waiting child of a given parent, and whether it queues it. -/
structure ChildRule where
  write : JobId → Job → Job
  follow : Job → Bool
  wiring_write : ∀ p r, (write p r).wiring = r.wiring
  count_write : ∀ p r, (write p r).pendingDependencyCount = r.pendingDependencyCount
  not_waiting_write : ∀ p r, (write p r).isWaiting = false
  follow_of_wiring : ∀ a b : Job, a.wiring = b.wiring → follow a = follow b

namespace Store

/-- A statement on waiting rows that keeps their keys activates nothing. -/
theorem keeps_of_waiting {s : Store} {p : JobId → Job → Bool} {f : JobId → Job → Job}
    (hp : ∀ i r, p i r = true → r.isWaiting = true)
    (hf : ∀ i r, (f i r).wiring = r.wiring) : s.Keeps p f := by
  intro i r _ h
  refine ⟨Job.identityKey_of_wiring (hf i r), fun _ ↦ ?_⟩
  rw [Job.isWaiting_iff.mp (hp i r h)]
  rfl

/-- `job.child_ids.filtered(lambda c: c.state == "waiting")` as a row condition. -/
def isWaitingChild (job : JobId) (r : Job) : Bool := r.parentId == some job && r.isWaiting

/-- Write `rule` on every waiting child of `job`, each from its own row. -/
def touchChildren (rule : ChildRule) (s : Store) (job : JobId) : Store :=
  s.update (fun _ r ↦ isWaitingChild job r) (fun _ r ↦ rule.write job r) <|
    keeps_of_waiting (fun _ _ h ↦ (Bool.and_eq_true_iff.mp h).2)
      fun _ r ↦ rule.wiring_write job r

/-- The waiting children of `job` that the walk queues. -/
def followed (rule : ChildRule) (s : Store) (job : JobId) : List JobId :=
  s.jobs.selectBy (fun _ r ↦ isWaitingChild job r && rule.follow r) RowOrder

/-- Number of waiting rows. -/
def waitingCount (s : Store) : Nat := s.jobs.count fun _ r ↦ r.isWaiting

/-- Every queued child leaves `waiting`, which bounds the walk. -/
theorem waitingCount_touchChildren_add (rule : ChildRule) (s : Store) (job : JobId) :
    (s.touchChildren rule job).waitingCount + (s.followed rule job).length ≤
      s.waitingCount := by
  have hc := Table.count_updateWhere_add s.jobs (fun _ r ↦ isWaitingChild job r)
    (fun _ r ↦ r.isWaiting) (fun _ r ↦ rule.write job r)
    (fun _ _ h ↦ (Bool.and_eq_true_iff.mp h).2) (fun _ r _ ↦ rule.not_waiting_write job r)
  have hl : (s.followed rule job).length ≤ s.jobs.count fun _ r ↦ isWaitingChild job r := by
    rw [followed, Table.length_selectBy]
    exact Table.count_le_count _ _ _ fun _ _ h ↦ (Bool.and_eq_true_iff.mp h).1
  simp only [waitingCount, touchChildren, update]
  omega

/-- `while queue: job = queue.pop(0); for child in job.child_ids.filtered(…): …`. -/
def walk (rule : ChildRule) (s : Store) : List JobId → Store
  | [] => s
  | job :: queue => walk rule (s.touchChildren rule job) (queue ++ s.followed rule job)
termination_by queue => s.waitingCount + queue.length
decreasing_by
  have h := waitingCount_touchChildren_add rule s job
  simp only [List.length_append, List.length_cons]
  omega

/-! ### What a walk reaches -/

/-- The walk goes on below row `i`. -/
def Follows (rule : ChildRule) (s : Store) (i : JobId) : Prop :=
  ∃ r, s.get? i = some r ∧ rule.follow r = true

/-- The waiting descendants that a walk from `queue` rewrites. -/
def Reached (rule : ChildRule) (s : Store) (queue : List JobId) : JobId → Prop :=
  Below (fun i ↦ ∃ q ∈ queue, s.ChildOf q i) (s.Follows rule) s.Waiting s.ChildOf

/-- A row after one round of the walk. -/
theorem get?_touchChildren (rule : ChildRule) (s : Store) (job i : JobId) :
    (s.touchChildren rule job).get? i =
      (s.get? i).map fun r ↦ if isWaitingChild job r then rule.write job r else r :=
  get?_update _ _ _ _ _

/-- The row condition of a waiting child. -/
theorem isWaitingChild_iff {job : JobId} {r : Job} :
    isWaitingChild job r = true ↔ r.parentId = some job ∧ r.isWaiting = true := by
  simp [isWaitingChild]

/-- The queued children are the waiting children that the rule follows. -/
theorem mem_followed {rule : ChildRule} {s : Store} {job i : JobId} :
    i ∈ s.followed rule job ↔ s.ChildOf job i ∧ s.Waiting i ∧ s.Follows rule i := by
  simp only [followed, Table.mem_selectBy, Bool.and_eq_true, isWaitingChild_iff]
  constructor
  · rintro ⟨r, hr, ⟨hp, hw⟩, hf⟩
    exact ⟨⟨r, hr, hp⟩, ⟨r, hr, hw⟩, ⟨r, hr, hf⟩⟩
  · rintro ⟨⟨r, hr, hp⟩, ⟨r', hr', hw⟩, ⟨r'', hr'', hf⟩⟩
    rw [hr] at hr' hr''
    cases hr'
    cases hr''
    exact ⟨r, hr, ⟨hp, hw⟩, hf⟩

/-- A round of a walk keeps what its writes keep. -/
theorem sameColumn_touchChildren {α : Type} {c : Job → α} (rule : ChildRule)
    (hc : ∀ p r, c (rule.write p r) = c r) (s : Store) (job : JobId) :
    SameColumn c s (s.touchChildren rule job) :=
  sameColumn_update _ fun _ r ↦ hc job r

/-- Same wiring, same continuation below a row. -/
theorem SameColumn.follows {s s' : Store} (h : s.SameWiring s') (rule : ChildRule)
    (i : JobId) : s'.Follows rule i ↔ s.Follows rule i := by
  constructor
  · rintro ⟨r', hr', hf⟩
    obtain ⟨r, hr, hw⟩ := h.row_before hr'
    exact ⟨r, hr, rule.follow_of_wiring r' r hw ▸ hf⟩
  · rintro ⟨r, hr, hf⟩
    obtain ⟨r', hr', hw⟩ := h.row hr
    exact ⟨r', hr', rule.follow_of_wiring r' r hw ▸ hf⟩

/-- A round of a walk takes out of `waiting` the children of its job. -/
theorem waiting_touchChildren (rule : ChildRule) (s : Store) (job i : JobId) :
    (s.touchChildren rule job).Waiting i ↔ s.Waiting i ∧ ¬ s.ChildOf job i := by
  simp only [Waiting, ChildOf, get?_touchChildren, Option.map_eq_some_iff]
  constructor
  · rintro ⟨_, ⟨r, hr, rfl⟩, hw⟩
    split at hw
    · rw [rule.not_waiting_write] at hw
      cases hw
    · next hn =>
      refine ⟨⟨r, hr, hw⟩, ?_⟩
      rintro ⟨r', hr', hp⟩
      rw [hr] at hr'
      cases hr'
      exact hn (isWaitingChild_iff.mpr ⟨hp, hw⟩)
  · rintro ⟨⟨r, hr, hw⟩, hn⟩
    refine ⟨_, ⟨r, hr, rfl⟩, ?_⟩
    split
    · next hc => exact absurd ⟨r, hr, (isWaitingChild_iff.mp hc).1⟩ hn
    · exact hw

/-- One round: the direct waiting children, then what the longer queue reaches. -/
theorem reached_cons (rule : ChildRule) (s : Store) (job i : JobId) (queue : List JobId) :
    s.Reached rule (job :: queue) i ↔
      (s.ChildOf job i ∧ s.Waiting i) ∨
        (s.touchChildren rule job).Reached rule (queue ++ s.followed rule job) i := by
  have hround : Below (fun a ↦ s.ChildOf job a ∨ ∃ q ∈ queue, s.ChildOf q a)
      (s.Follows rule) s.Waiting s.ChildOf i ↔ _ := below_round
  have hsame := sameColumn_touchChildren rule rule.wiring_write s job
  have hseed (c : JobId) :
      (∃ q ∈ queue ++ s.followed rule job, (s.touchChildren rule job).ChildOf q c) ↔
        (∃ q ∈ queue, s.ChildOf q c) ∨
          ∃ a, s.ChildOf job a ∧ s.Waiting a ∧ s.Follows rule a ∧ s.ChildOf a c := by
    simp only [hsame.childOf, List.mem_append, mem_followed, or_and_right, exists_or, and_assoc]
  have hedge (a b : JobId) : (s.touchChildren rule job).ChildOf a b ↔ s.ChildOf a b :=
    hsame.childOf
  have hrest := below_congr (b := i) hseed (hsame.follows rule)
    (waiting_touchChildren rule s job) hedge
  rw [Reached, Reached, hrest, ← hround]
  simp only [List.mem_cons, or_and_right, exists_or, exists_eq_left]

/-- A walk leaves every row that it does not reach. -/
theorem get?_walk_of_not_reached (rule : ChildRule) (s : Store) (queue : List JobId)
    {i : JobId} (h : ¬ s.Reached rule queue i) : (walk rule s queue).get? i = s.get? i := by
  induction s, queue using walk.induct rule with
  | case1 s => rw [walk]
  | case2 s job queue ih =>
    rw [reached_cons, not_or] at h
    rw [walk, ih h.2, get?_touchChildren]
    cases hr : s.get? i with
    | none => rfl
    | some r =>
      have hn : isWaitingChild job r = false := by
        rw [Bool.eq_false_iff, ne_eq, isWaitingChild_iff]
        rintro ⟨hp, hw⟩
        exact h.1 ⟨⟨r, hr, hp⟩, ⟨r, hr, hw⟩⟩
      simp [hn]

/-- A walk writes every row that it reaches once, with the row's own parent. -/
theorem get?_walk_of_reached (rule : ChildRule) (s : Store) (queue : List JobId)
    {i q : JobId} {r : Job} (hr : s.get? i = some r) (hq : r.parentId = some q)
    (h : s.Reached rule queue i) : (walk rule s queue).get? i = some (rule.write q r) := by
  induction s, queue using walk.induct rule generalizing r with
  | case1 s => exact absurd h (not_below_of_no_seed (by simp))
  | case2 s job queue ih =>
    rw [walk]
    rcases (reached_cons rule s job i queue).mp h with ⟨⟨r', hr', hp⟩, hw⟩ | hrest
    · -- A direct child is written now and, no longer waiting, never again.
      have hnw : ¬ (s.touchChildren rule job).Waiting i := fun hw' ↦
        ((waiting_touchChildren rule s job i).mp hw').2 ⟨r', hr', hp⟩
      rw [get?_walk_of_not_reached rule _ _ fun hb ↦ hnw hb.entered, get?_touchChildren, hr]
      rw [hr] at hr'
      cases hr'
      obtain ⟨r'', hr'', hw⟩ := hw
      rw [hr] at hr''
      cases hr''
      rw [hq, Option.some.injEq] at hp
      subst hp
      simp [isWaitingChild_iff.mpr ⟨hq, hw⟩]
    · have hn := ((waiting_touchChildren rule s job i).mp hrest.entered).2
      have hkeep : (s.touchChildren rule job).get? i = some r := by
        have hc : isWaitingChild job r = false := by
          rw [Bool.eq_false_iff, ne_eq, isWaitingChild_iff]
          exact fun hc ↦ hn ⟨r, hr, hc.1⟩
        simp [get?_touchChildren, hr, hc]
      exact ih hkeep hq hrest

/-- A walk keeps what its writes keep. -/
theorem sameColumn_walk {α : Type} {c : Job → α} (rule : ChildRule)
    (hc : ∀ p r, c (rule.write p r) = c r) (s : Store) (queue : List JobId) :
    SameColumn c s (walk rule s queue) := by
  induction s, queue using walk.induct rule with
  | case1 s => rw [walk]; exact .refl s
  | case2 s job queue ih => rw [walk]; exact (sameColumn_touchChildren rule hc s job).trans ih

/-- A walk keeps the wiring of the store. -/
theorem sameWiring_walk (rule : ChildRule) (s : Store) (queue : List JobId) :
    s.SameWiring (walk rule s queue) := sameColumn_walk rule rule.wiring_write s queue

/-- A round of a walk activates nothing. -/
theorem deactivates_touchChildren (rule : ChildRule) (s : Store) (job : JobId) :
    s.Deactivates (s.touchChildren rule job) := deactivates_update _

/-- A walk activates nothing. -/
theorem deactivates_walk (rule : ChildRule) (s : Store) (queue : List JobId) :
    s.Deactivates (walk rule s queue) := by
  induction s, queue using walk.induct rule with
  | case1 s => rw [walk]; exact .refl s
  | case2 s job queue ih => rw [walk]; exact (deactivates_touchChildren rule s job).trans ih

/-- What a walk reaches has a parent. -/
theorem Reached.childOf {rule : ChildRule} {s : Store} {queue : List JobId}
    {i : JobId} (h : s.Reached rule queue i) : ∃ q, s.ChildOf q i := by
  cases h with
  | seed hs _ => exact hs.imp fun _ hq ↦ hq.2
  | step _ _ he _ => exact ⟨_, he⟩

/-- A walk takes out of `waiting` exactly what it reaches. -/
theorem waiting_walk (rule : ChildRule) (s : Store) (queue : List JobId) (i : JobId) :
    (walk rule s queue).Waiting i ↔ s.Waiting i ∧ ¬ s.Reached rule queue i := by
  by_cases h : s.Reached rule queue i
  · obtain ⟨q, r, hr, hq⟩ := Reached.childOf h
    rw [waiting_iff (get?_walk_of_reached rule s queue hr hq h), rule.not_waiting_write]
    simp [h]
  · simp only [Waiting, get?_walk_of_not_reached rule s queue h, h, not_false_eq_true, and_true]

/-! ### Statements over a recordset -/

/-- `for job in self: UPDATE queue_job SET f job WHERE p job` on waiting rows only. -/
def updateEach (p : JobId → Job → Bool) (f : JobId → Job → Job)
    (hp : ∀ j r, p j r = true → r.isWaiting = true)
    (hf : ∀ j r, (f j r).wiring = r.wiring) (s : Store) (self : List JobId) : Store :=
  self.foldl (fun s j ↦ s.update (fun _ ↦ p j) (fun _ ↦ f j)
    (keeps_of_waiting (fun _ ↦ hp j) fun _ ↦ hf j)) s

/-- What `updateEach` does to one row. -/
def rowEach (p : JobId → Job → Bool) (f : JobId → Job → Job) (self : List JobId) (r : Job) :
    Job :=
  self.foldl (fun r j ↦ if p j r then f j r else r) r

/-- A loop of statements treats every row by itself. -/
theorem get?_updateEach (p : JobId → Job → Bool) (f : JobId → Job → Job)
    (hp : ∀ j r, p j r = true → r.isWaiting = true)
    (hf : ∀ j r, (f j r).wiring = r.wiring) (s : Store) (self : List JobId) (i : JobId) :
    (s.updateEach p f hp hf self).get? i = (s.get? i).map (rowEach p f self) := by
  induction self generalizing s with
  | nil => exact Option.map_id'.symm
  | cons j self ih =>
    refine (ih _).trans ?_
    rw [get?_update, Option.map_map]
    rfl

/-- A loop of statements keeps what each of them keeps. -/
theorem sameColumn_updateEach {α : Type} {c : Job → α} (p : JobId → Job → Bool)
    (f : JobId → Job → Job) (hp : ∀ j r, p j r = true → r.isWaiting = true)
    (hf : ∀ j r, (f j r).wiring = r.wiring) (hc : ∀ j r, c (f j r) = c r) (s : Store)
    (self : List JobId) : SameColumn c s (s.updateEach p f hp hf self) := by
  induction self generalizing s with
  | nil => exact .refl s
  | cons j self ih => exact (sameColumn_update _ fun _ ↦ hc j).trans (ih _)

/-- A loop of statements on waiting rows activates nothing. -/
theorem deactivates_updateEach (p : JobId → Job → Bool) (f : JobId → Job → Job)
    (hp : ∀ j r, p j r = true → r.isWaiting = true)
    (hf : ∀ j r, (f j r).wiring = r.wiring) (s : Store) (self : List JobId) :
    s.Deactivates (s.updateEach p f hp hf self) := by
  induction self generalizing s with
  | nil => exact .refl s
  | cons j self ih => exact (deactivates_update _).trans (ih _)

end Store

section Row

variable {p : JobId → Job → Bool} {f : JobId → Job → Job}

/-- A row that is not waiting stays as it is. -/
theorem rowEach_of_not_waiting (hp : ∀ j r, p j r = true → r.isWaiting = true)
    (self : List JobId) {r : Job} (hr : r.isWaiting = false) :
    Store.rowEach p f self r = r := by
  induction self with
  | nil => rfl
  | cons j self ih =>
    have hn : p j r = false := by
      rw [Bool.eq_false_iff]
      intro h
      rw [hp j r h] at hr
      cases hr
    rwa [Store.rowEach, List.foldl_cons, if_neg (by simp [hn])]

/-- A row that no statement of the loop matches stays as it is. -/
theorem rowEach_of_not_match {self : List JobId} {r : Job} (h : ∀ j ∈ self, p j r = false) :
    Store.rowEach p f self r = r := by
  induction self with
  | nil => rfl
  | cons j self ih =>
    rw [Store.rowEach, List.foldl_cons, if_neg (by simp [h j])]
    exact ih fun k hk ↦ h k (List.mem_cons_of_mem _ hk)

end Row

/-! ### The cascades of the model -/

/-- The row `_release_dependents` leaves of a waiting dependent;
`models/queue_job.py:562–578`. -/
def releaseRow (now : Time) (r : Job) : Job :=
  { r with
    pendingDependencyCount := r.pendingDependencyCount - 1
    state :=
      if r.pendingDependencyCount - 1 ≤ 0 ∧ r.runOnFailure = true then .cancelled
      else if r.pendingDependencyCount - 1 ≤ 0 then .pending
      else r.state
    cancelledAt :=
      if r.pendingDependencyCount - 1 ≤ 0 ∧ r.runOnFailure = true then some now
      else r.cancelledAt
    writeDate := now }

/-- The row `_fail_dependents` leaves of a waiting dependent of `job`;
`models/queue_job.py:598–607`. -/
def failRow (now : Time) (job : JobId) (r : Job) : Job :=
  { r with
    state := if r.runOnFailure then .pending else .failed
    excInfo := if r.runOnFailure then r.excInfo else some s!"Parent job {job} failed"
    writeDate := now }

/-- Row condition of the two statements over dependents;
`models/queue_job.py:579–581,608–610`. -/
def isWaitingDependent (job : JobId) (r : Job) : Bool := r.isWaiting && r.dependsOn job

/-- A waiting dependent waits. -/
theorem isWaiting_of_dependent (job : JobId) (r : Job)
    (h : isWaitingDependent job r = true) : r.isWaiting = true := (Bool.and_eq_true_iff.mp h).1

/-- `_release_dependents`; `models/queue_job.py:551–585`. -/
def releaseDependents (now : Time) (s : Store) (self : List JobId) : Store :=
  s.updateEach isWaitingDependent (fun _ ↦ releaseRow now) isWaiting_of_dependent
    (fun _ _ ↦ rfl) self

/-- `_fail_dependents`; `models/queue_job.py:587–614`. -/
def failDependents (now : Time) (s : Store) (self : List JobId) : Store :=
  s.updateEach isWaitingDependent (failRow now) isWaiting_of_dependent (fun _ _ ↦ rfl) self

/-- A row after `_release_dependents`. -/
theorem get?_releaseDependents (now : Time) (s : Store) (self : List JobId) (i : JobId) :
    (releaseDependents now s self).get? i =
      (s.get? i).map (Store.rowEach isWaitingDependent (fun _ ↦ releaseRow now) self) :=
  Store.get?_updateEach _ _ _ _ _ _ _

/-- A row after `_fail_dependents`. -/
theorem get?_failDependents (now : Time) (s : Store) (self : List JobId) (i : JobId) :
    (failDependents now s self).get? i =
      (s.get? i).map (Store.rowEach isWaitingDependent (failRow now) self) :=
  Store.get?_updateEach _ _ _ _ _ _ _

/-- `_release_dependents` keeps the wiring of the store. -/
theorem sameWiring_releaseDependents (now : Time) (s : Store) (self : List JobId) :
    s.SameWiring (releaseDependents now s self) :=
  Store.sameColumn_updateEach isWaitingDependent (fun _ ↦ releaseRow now)
    isWaiting_of_dependent (fun _ _ ↦ rfl) (fun _ _ ↦ rfl) s self

/-- `_release_dependents` activates nothing. -/
theorem deactivates_releaseDependents (now : Time) (s : Store) (self : List JobId) :
    s.Deactivates (releaseDependents now s self) :=
  Store.deactivates_updateEach _ _ _ _ _ _

/-- `_fail_dependents` keeps the wiring of the store. -/
theorem sameWiring_failDependents (now : Time) (s : Store) (self : List JobId) :
    s.SameWiring (failDependents now s self) :=
  Store.sameColumn_updateEach isWaitingDependent (failRow now) isWaiting_of_dependent
    (fun _ _ ↦ rfl) (fun _ _ ↦ rfl) s self

/-- A waiting row that lists a failed job leaves `waiting` once, by its disposition. -/
theorem state_rowEach_failRow (now : Time) {self : List JobId} {r : Job}
    (hw : r.isWaiting = true) (h : ∃ j ∈ self, r.dependsOn j = true) :
    (Store.rowEach isWaitingDependent (failRow now) self r).state =
      if r.runOnFailure then .pending else .failed := by
  induction self with
  | nil => simp at h
  | cons j self ih =>
    rw [Store.rowEach, List.foldl_cons]
    by_cases hj : isWaitingDependent j r = true
    · have hn : (failRow now j r).isWaiting = false := by
        simp only [failRow, Job.isWaiting]
        split <;> rfl
      rw [if_pos hj]
      exact congrArg Job.state (rowEach_of_not_waiting isWaiting_of_dependent self hn)
    · rw [if_neg hj]
      refine ih ?_
      obtain ⟨k, hk, hd⟩ := h
      rcases List.mem_cons.mp hk with rfl | hk
      · exact absurd (Bool.and_eq_true_iff.mpr ⟨hw, hd⟩) hj
      · exact ⟨k, hk, hd⟩

/-- A row that lists no failed job, or no longer waits, is left by `_fail_dependents`. -/
theorem get?_failDependents_of_not_dependent (now : Time) {s : Store} {self : List JobId}
    {i : JobId} {r : Job} (hr : s.get? i = some r)
    (h : ¬ (r.isWaiting = true ∧ ∃ j ∈ self, r.dependsOn j = true)) :
    (failDependents now s self).get? i = some r := by
  rw [get?_failDependents, hr, Option.map_some, rowEach_of_not_match]
  intro j hj
  rw [isWaitingDependent, Bool.and_eq_false_iff]
  by_cases hw : r.isWaiting = true
  · exact .inr (by simpa using fun hd ↦ h ⟨hw, j, hj, hd⟩)
  · exact .inl (by simpa using hw)

/-- A waiting row that lists a failed job is moved by its disposition. -/
theorem stateOf_failDependents (now : Time) {s : Store} {self : List JobId} {i : JobId}
    {r : Job} (hr : s.get? i = some r) (hw : r.isWaiting = true)
    (h : ∃ j ∈ self, r.dependsOn j = true) :
    (failDependents now s self).stateOf i =
      some (if r.runOnFailure then .pending else .failed) := by
  rw [Store.stateOf, get?_failDependents, hr, Option.map_some, Option.map_some,
    state_rowEach_failRow now hw h]

/-- How many of the completed jobs a row lists. -/
def Job.listed (r : Job) (self : List JobId) : Nat := self.countP r.dependsOn

/-- The completed jobs take the counter of a row to zero. -/
def Job.ReleasedBy (r : Job) (self : List JobId) : Prop :=
  1 ≤ r.listed self ∧ r.pendingDependencyCount ≤ r.listed self

instance (r : Job) (self : List JobId) : Decidable (r.ReleasedBy self) := by
  unfold Job.ReleasedBy; infer_instance

/-- A longer list counts its parts. -/
theorem Job.listed_cons (r : Job) (j : JobId) (self : List JobId) :
    r.listed (j :: self) = r.listed [j] + r.listed self := by
  rw [listed, listed, listed, ← List.countP_append]
  rfl

/-- Equal wiring, equal number of listed jobs. -/
theorem Job.listed_of_wiring {a b : Job} (h : a.wiring = b.wiring) (self : List JobId) :
    a.listed self = b.listed self := by
  unfold listed
  congr 1
  exact funext fun k ↦ dependsOn_of_wiring h k

/-- A waiting row after `_release_dependents`: its counter has gone down once for every
completed job that it lists, and at zero it has left `waiting` by its disposition. -/
theorem rowEach_releaseRow (now : Time) (self : List JobId) {r : Job}
    (hw : r.isWaiting = true) :
    (r.ReleasedBy self → (Store.rowEach isWaitingDependent (fun _ ↦ releaseRow now) self r).state
      = if r.runOnFailure then .cancelled else .pending) ∧
    (¬ r.ReleasedBy self → ∃ r', Store.rowEach isWaitingDependent (fun _ ↦ releaseRow now) self r
      = r' ∧ r'.wiring = r.wiring ∧ r'.isWaiting = true ∧
        r'.pendingDependencyCount = r.pendingDependencyCount - r.listed self) := by
  induction self generalizing r with
  | nil =>
    refine ⟨fun h ↦ absurd h.1 (by simp [Job.listed]), fun _ ↦ ⟨r, rfl, rfl, hw, ?_⟩⟩
    simp [Job.listed]
  | cons j self ih =>
    rw [Store.rowEach, List.foldl_cons]
    by_cases hd : r.dependsOn j = true
    · have hmatch : isWaitingDependent j r = true := Bool.and_eq_true_iff.mpr ⟨hw, hd⟩
      have hlisted : r.listed (j :: self) = r.listed self + 1 := by simp [Job.listed, hd]
      rw [if_pos hmatch, Job.ReleasedBy, hlisted]
      by_cases hcount : r.pendingDependencyCount - 1 ≤ 0
      · -- The statement for `j` releases the row, and the later ones leave it.
        have hn : (releaseRow now r).isWaiting = false := by
          simp only [Job.isWaiting, releaseRow, hcount, true_and, if_true]
          split <;> rfl
        have hrest := rowEach_of_not_waiting (p := isWaitingDependent)
          (f := fun _ ↦ releaseRow now) isWaiting_of_dependent self hn
        unfold Store.rowEach at hrest
        rw [hrest]
        refine ⟨fun _ ↦ by simp [releaseRow, hcount], fun hno ↦ absurd ?_ hno⟩
        exact ⟨by omega, by omega⟩
      · have hstate : (releaseRow now r).state = .waiting := by
          simp [releaseRow, hcount, Job.isWaiting_iff.mp hw]
        have hlist : (releaseRow now r).listed self = r.listed self := rfl
        have hpend : (releaseRow now r).pendingDependencyCount =
            r.pendingDependencyCount - 1 := rfl
        obtain ⟨hrel, hnot⟩ := ih (Job.isWaiting_iff.mpr hstate)
        rw [Job.ReleasedBy, hlist, hpend] at hrel hnot
        refine ⟨fun h ↦ hrel ⟨by omega, by omega⟩, fun h ↦ ?_⟩
        obtain ⟨r', hr', hwire, hw', hc⟩ := hnot fun h' ↦ h ⟨by omega, by omega⟩
        exact ⟨r', hr', hwire, hw', by omega⟩
    · have hlisted : r.listed (j :: self) = r.listed self := by simp [Job.listed, hd]
      rw [if_neg (by simp [isWaitingDependent, hd]), Job.ReleasedBy, hlisted]
      exact ih hw

private theorem follow_eq_of_wiring (a b : Job) (h : a.wiring = b.wiring) :
    (!a.runOnFailure) = !b.runOnFailure := by rw [Job.runOnFailure_of_wiring h]

/-- Writes of `_cascade_children_on_parent_failure`: on_error children are promoted,
on_done children fail and the walk goes on below them; `models/queue_job.py:788–803`. -/
def failureRule (now : Time) : ChildRule where
  write job r :=
    if r.runOnFailure then { r with state := .pending, writeDate := now }
    else { r with
      state := .failed
      excInfo := some s!"Parent job {job} failed"
      writeDate := now }
  follow r := !r.runOnFailure
  wiring_write _ r := by split <;> rfl
  count_write _ r := by split <;> rfl
  not_waiting_write _ r := by split <;> rfl
  follow_of_wiring := follow_eq_of_wiring

/-- Writes on the direct children of a successful parent: on_error children are
cancelled and queued, on_done children released; `models/queue_job.py:759–764`. -/
def successRule (now : Time) : ChildRule where
  write _ r :=
    if r.runOnFailure then
      { r with state := .cancelled, cancelledAt := some (datetimeNow now), writeDate := now }
    else { r with state := .pending, writeDate := now }
  follow r := r.runOnFailure
  wiring_write _ r := by split <;> rfl
  count_write _ r := by split <;> rfl
  not_waiting_write _ r := by split <;> rfl
  follow_of_wiring _ _ h := Job.runOnFailure_of_wiring h

/-- Writes below a cancelled child: both dispositions are cancelled;
`models/queue_job.py:765–772`. -/
def cancelRule (now : Time) : ChildRule where
  write _ r :=
    { r with state := .cancelled, cancelledAt := some (datetimeNow now), writeDate := now }
  follow _ := true
  wiring_write _ _ := rfl
  count_write _ _ := rfl
  not_waiting_write _ _ := rfl
  follow_of_wiring _ _ _ := rfl

/-- `_cascade_children_on_parent_failure`; `models/queue_job.py:774–803`. -/
def cascadeChildrenOnParentFailure (now : Time) (s : Store) (self : JobId) : Store :=
  (s.touchChildren (failureRule now) self).walk (failureRule now)
    (s.followed (failureRule now) self)

/-- `_cascade_children_on_parent_success`; `models/queue_job.py:743–772`. -/
def cascadeChildrenOnParentSuccess (now : Time) (s : Store) (self : JobId) : Store :=
  (s.touchChildren (successRule now) self).walk (cancelRule now)
    (s.followed (successRule now) self)

end JobWorker
