import JobWorker.DelayEffects
import JobWorker.Runs.PrematureRelease

/-!
# The counter of a group barrier over runs

`DelayableGroup.delay` hands the list of its members' jobs to every callback, and
`enqueue` takes the length of the list as the counter, while a completion counts once for
every row that lists the job (`delay.py:240–269`, `models/queue_job.py:551–585,1028`). The
counter of a waiting barrier is therefore the length of the list less the completions of
listed jobs, in every run; it is the number of distinct uncompleted members exactly when
the list has no duplicate.
-/

namespace JobWorker

open Delaying

/-! ### The barriers of a group -/

/-- In a loop over callbacks that starts in session `st`, it is the turn of `callback`,
which is wired in `st'`. -/
inductive CallbackTurn (delay : Ref → Delaying (Option JobId)) (wire : Scheduler → Scheduler)
    (callback : Ref) (st' : Session) : List Ref → Session → Prop
  | here {callbacks : List Ref} {st : Session} : Returns (assign callback wire) st () st' →
      CallbackTurn delay wire callback st' (callback :: callbacks) st
  | later {c : Ref} {callbacks : List Ref} {st st₁ st₂ : Session} {job : Option JobId} :
      Returns (assign c wire) st () st₁ → Returns (delay c) st₁ job st₂ →
      CallbackTurn delay wire callback st' callbacks st₂ →
      CallbackTurn delay wire callback st' (c :: callbacks) st

/-- The call of `delay` on the group `g` in session `st` has delayed its members, with
jobs `memberJobs`, and comes to a callback in session `st'`. -/
inductive GroupTurn (delay : Ref → Delaying (Option JobId)) (g : Ref)
    (delayables : List Ref) (st : Session) (memberJobs : List JobId) (callback : Ref)
    (st' : Session) : Prop
  | next {graphUuid : Nat} {st₁ st₂ : Session} :
      Returns (graphUuidOf g) st graphUuid st₁ →
      Returns (delayMembers delay g graphUuid delayables) st₁ memberJobs st₂ →
      CallbackTurn delay (wireNext graphUuid memberJobs) callback st'
        (st₂.heap g).nextDelayables st₂ →
      GroupTurn delay g delayables st memberJobs callback st'
  | error {graphUuid : Nat} {st₁ st₂ st₃ : Session} :
      Returns (graphUuidOf g) st graphUuid st₁ →
      Returns (delayMembers delay g graphUuid delayables) st₁ memberJobs st₂ →
      Returns (delayCallbacks delay (wireNext graphUuid memberJobs)
        (st₂.heap g).nextDelayables) st₂ () st₃ →
      CallbackTurn delay (wireError graphUuid memberJobs) callback st'
        (st₂.heap g).onErrorDelayables st₃ →
      GroupTurn delay g delayables st memberJobs callback st'

/-- A callback of the group `g` is a `Delayable` whose job is generated now, by
`enqueue` with `args` on the table of session `st'`. -/
structure GroupBarrier (env : DelayEnv) (fuel : Nat) (g : Ref) (st : Session)
    (memberJobs : List JobId) (st' : Session) (args : EnqueueArgs) : Prop where
  exists_turn : ∃ delayables callback call properties method graphUuid,
    (st.heap g).cls = .group delayables ∧
    GroupTurn (delay env fuel) g delayables st memberJobs callback st' ∧
    (st'.heap callback).cls = .delayable call properties none ∧
    call.jobMethod = some method ∧
    args = delayableArgs env.now call method properties graphUuid (st'.heap callback)

/-- At its turn, no member of the loop is going to get one of the `jobs` of the members
before it. -/
inductive MembersDiffer (env : DelayEnv) (delay : Ref → Delaying (Option JobId)) (g : Ref)
    (graphUuid : Nat) : List JobId → List Ref → Session → Prop
  | nil {jobs : List JobId} {st : Session} : MembersDiffer env delay g graphUuid jobs [] st
  | cons {jobs : List JobId} {member : Ref} {members : List Ref} {job : JobId}
      {st st₁ st₂ : Session} :
      Returns (assign member (wireMember graphUuid (st.heap g))) st () st₁ →
      (∀ j, st₁.target env member = some j → j ∉ jobs) →
      Returns (delay member) st₁ (some job) st₂ →
      MembersDiffer env delay g graphUuid (jobs ++ [job]) members st₂ →
      MembersDiffer env delay g graphUuid jobs (member :: members) st

/-- No member of the group has, at its turn, generated the job of an earlier member or an
identity key that such a job holds. -/
def DistinctMembers (env : DelayEnv) (fuel : Nat) (g : Ref) (st : Session) : Prop :=
  ∃ delayables graphUuid st₁, (st.heap g).cls = .group delayables ∧
    Returns (graphUuidOf g) st graphUuid st₁ ∧
    MembersDiffer env (delay env fuel) g graphUuid [] delayables st₁

/-- A call returns one value in one session. -/
theorem returns_unique {α : Type} {m : Delaying α} {st st₁ st₂ : Session} {a b : α}
    (h₁ : Returns m st a st₁) (h₂ : Returns m st b st₂) : a = b ∧ st₁ = st₂ := by
  rw [Returns, h₁] at h₂
  cases h₂
  exact ⟨rfl, rfl⟩

/-- The jobs of the members are pairwise different exactly when the members differ. -/
theorem nodup_iff_membersDiffer {env : DelayEnv} {fuel : Nat} {g : Ref} {graphUuid : Nat}
    {members : List Ref} {jobs ids : List JobId} {st st' : Session} (hk : st.Known)
    (hjobs : ∀ j ∈ jobs, ∃ row, st.store.get? j = some row) (hnodup : jobs.Nodup)
    (h : Returns (delayMembers (delay env fuel) g graphUuid members) st ids st') :
    (jobs ++ ids).Nodup ↔ MembersDiffer env (delay env fuel) g graphUuid jobs members st := by
  induction members generalizing jobs ids st with
  | nil =>
    obtain ⟨rfl, _⟩ := returns_pure.mp h
    rw [List.append_nil]
    exact iff_of_true hnodup .nil
  | cons member members ih =>
    obtain ⟨st₁, st₂, job, rest, ha, hd, hm, rfl⟩ := delayMembers_cons h
    have hwired := grows_assign ha fun _ ↦ rfl
    have hk₁ := hwired.known hk
    have hrest := (tracked_grows env).keeping fuel _ _ _ _ hd
    obtain ⟨hrow, htarget⟩ := delay_target hk₁ hd
    have hrows : ∀ j ∈ jobs ++ [job], ∃ row, st₂.store.get? j = some row := by
      intro j hj
      rcases List.mem_append.mp hj with hj | hj
      · obtain ⟨row, hrow⟩ := hjobs j hj
        exact (hwired.trans hrest).rows j row hrow
      · exact List.mem_singleton.mp hj ▸ hrow
    -- The job is the target or new, so it is an earlier job only as the target.
    have hnew : job ∉ jobs ↔ ∀ j, st₁.target env member = some j → j ∉ jobs := by
      constructor
      · intro hjob j hj
        rcases htarget with ht | ⟨ht, _⟩
        · exact Option.some.inj (ht.symm.trans hj) ▸ hjob
        · exact nomatch ht.symm.trans hj
      · intro hall hjob
        rcases htarget with ht | ⟨_, hnone⟩
        · exact hall job ht hjob
        · obtain ⟨row, hrow⟩ := hjobs job hjob
          obtain ⟨row', hrow'⟩ := hwired.rows job row hrow
          exact nomatch hnone.symm.trans hrow'
    rw [List.append_cons]
    constructor
    · intro hall
      have hprefix := hall.of_append_left
      refine .cons ha (hnew.mp fun hjob ↦ ?_) hd
        ((ih (hrest.known hk₁) hrows hprefix hm).mp hall)
      exact List.disjoint_of_nodup_append hprefix hjob (List.mem_singleton.mpr rfl)
    · intro hdiffer
      cases hdiffer with
      | cons ha' hfresh hd' hdiffer =>
        obtain ⟨_, rfl⟩ := returns_unique ha ha'
        obtain ⟨hjob, rfl⟩ := returns_unique hd hd'
        cases hjob
        refine (ih (hrest.known hk₁) hrows ?_ hm).mpr hdiffer
        rw [← List.concat_eq_append]
        exact hnodup.concat (hnew.mpr hfresh)

/-- The members of a group turn by turn. -/
theorem GroupBarrier.nodup_iff {env : DelayEnv} {fuel : Nat} {g : Ref} {st st' : Session}
    {memberJobs : List JobId} {args : EnqueueArgs}
    (hb : GroupBarrier env fuel g st memberJobs st' args) (hk : st.Known) :
    memberJobs.Nodup ↔ DistinctMembers env fuel g st := by
  obtain ⟨delayables, _, _, _, _, _, hcls, hturn, _⟩ := hb.exists_turn
  have hmembers : ∃ graphUuid st₁ st₂, Returns (graphUuidOf g) st graphUuid st₁ ∧
      Returns (delayMembers (delay env fuel) g graphUuid delayables) st₁ memberJobs st₂ := by
    cases hturn with
    | next hu hm _ => exact ⟨_, _, _, hu, hm⟩
    | error hu hm _ _ => exact ⟨_, _, _, hu, hm⟩
  obtain ⟨graphUuid, st₁, st₂, hu, hm⟩ := hmembers
  have hiff := nodup_iff_membersDiffer ((grows_of_eq (eq_of_graphUuidOf hu)).known hk)
    (fun j hj ↦ absurd hj List.not_mem_nil) .nil hm
  rw [List.nil_append] at hiff
  rw [hiff]
  constructor
  · exact fun h ↦ ⟨delayables, graphUuid, st₁, hcls, hu, h⟩
  · rintro ⟨delayables', graphUuid', st₁', hcls', hu', h⟩
    rw [hcls, SchedulerClass.group.injEq] at hcls'
    obtain ⟨rfl, rfl⟩ := returns_unique hu hu'
    exact hcls' ▸ h

/-- A callback has been wired when its turn comes. -/
theorem CallbackTurn.wired {delay : Ref → Delaying (Option JobId)} {wire : Scheduler → Scheduler}
    {callback : Ref} {callbacks : List Ref} {st st' : Session}
    (h : CallbackTurn delay wire callback st' callbacks st) :
    ∃ d, st'.heap callback = wire d := by
  induction h with
  | @here _ st h =>
    cases h
    exact ⟨st.heap callback, Function.update_self ..⟩
  | later _ _ _ ih => exact ih

/-- The barrier of a group lists the jobs of the members. -/
theorem GroupBarrier.dependencyJobIds {env : DelayEnv} {fuel : Nat} {g : Ref}
    {st st' : Session} {memberJobs : List JobId} {args : EnqueueArgs}
    (h : GroupBarrier env fuel g st memberJobs st' args) :
    args.dependencyJobIds = some memberJobs := by
  obtain ⟨_, _, _, _, _, _, _, hturn, _, _, rfl⟩ := h.exists_turn
  cases hturn with
  | next _ _ h =>
    obtain ⟨d, hd⟩ := h.wired
    rw [delayableArgs, hd]
    rfl
  | error _ _ _ h =>
    obtain ⟨d, hd⟩ := h.wired
    rw [delayableArgs, hd]
    rfl

/-- The row of a group barrier that is new. -/
theorem GroupBarrier.row {env : DelayEnv} {fuel : Nat} {g : Ref} {st st' : Session}
    {memberJobs : List JobId} {args : EnqueueArgs} {s' : Store} {b : JobId}
    (hb : GroupBarrier env fuel g st memberJobs st' args)
    (henq : enqueue env.orm env.now st'.store args = .ok (s', b))
    (hnew : st'.store.get? b = none) :
    ∃ r, s'.get? b = some r ∧ r.dependencies = memberJobs ∧
      r.pendingDependencyCount = memberJobs.length ∧ (memberJobs ≠ [] → r.isWaiting = true) := by
  have hdeps := hb.dependencyJobIds
  rcases enqueue_cases henq with ⟨_, hfound⟩ | ⟨eta, _, _, hcreate⟩
  · obtain ⟨r, hr⟩ := exists_of_enqueue_found hfound
    rw [hnew] at hr
    cases hr
  · refine ⟨enqueueVals env.orm env.now args eta, ?_, ?_, ?_, fun hne ↦ ?_⟩
    · exact Store.get?_create_self hcreate
    · simp [Job.dependencies, enqueueVals, hdeps]
    · simp [enqueueVals, hdeps]
    · simp [Job.isWaiting, enqueueVals, hdeps, hne]

/-! ### Runs from the barrier on -/

namespace World

/-- A run from `w`, with the jobs it completes, the latest first. -/
inductive Run (w : World) : List JobId → World → Prop
  | refl : Run w [] w
  | step {done : List JobId} {w₁ w₂ : World} {e : Event} : Run w done w₁ → w₁.Step e w₂ →
      Run w (completes e ++ done) w₂

/-- No listed job has completed twice. -/
def EachOnce (memberJobs done : List JobId) : Prop := ∀ d ∈ memberJobs, done.count d ≤ 1

/-- The distinct members that have not completed. -/
def uncompleted (memberJobs done : List JobId) : Finset JobId :=
  memberJobs.toFinset.filter fun d ↦ d ∉ done

/-- What an event makes of a waiting barrier that it settles: an on_done barrier becomes
pending and an on_error barrier cancelled, unless the event completes the barrier itself or
its child cascade cancels it together with its parent. -/
inductive Settled (s s' : Store) (e : Event) (b : JobId) (r : Job) : Prop
  | released : b ∉ completes e → ¬ s.Swept (completes e) (cascadesToChildren e) b →
      s'.stateOf b = some (if r.runOnFailure then .cancelled else .pending) →
      Settled s s' e b r
  | swept : b ∉ completes e → s.Swept (completes e) (cascadesToChildren e) b →
      s'.stateOf b = some .cancelled → Settled s s' e b r
  | completed : b ∈ completes e → s'.stateOf b = some .done → Settled s s' e b r

/-- From the enqueueing of barrier `b` on, the counter of the waiting barrier is the number
of its distinct uncompleted members, and the event that completes the last of them settles
the barrier. -/
structure NoMissedRelease (w : World) (b : JobId) (memberJobs : List JobId) : Prop where
  counted : ∀ done w₁ r, Run w done w₁ → EachOnce memberJobs w₁.completed →
    w₁.store.get? b = some r → r.isWaiting = true →
    r.pendingDependencyCount = (uncompleted memberJobs w₁.completed).card
  released : ∀ done w₁ e w₂ r, Run w done w₁ → w₁.Step e w₂ →
    EachOnce memberJobs w₂.completed → uncompleted memberJobs w₁.completed ≠ ∅ →
    uncompleted memberJobs w₂.completed = ∅ →
    w₁.store.get? b = some r → r.isWaiting = true → Settled w₁.store w₂.store e b r

/-- A barrier row counts the listed completions down from the length of its list. -/
structure CountsDown (memberJobs done : List JobId) (r : Job) : Prop where
  dependencies : r.dependencies = memberJobs
  count : r.isWaiting = true →
    r.pendingDependencyCount = memberJobs.length - r.listed done

section Run

variable {w w₁ w₂ : World} {e : Event} {done memberJobs : List JobId} {b : JobId} {r : Job}

/-- An event counts the jobs it completes against a waiting barrier. -/
theorem CountsDown.step {s' : Store} (h : CountsDown memberJobs done r) (hc : w.Commits e s')
    (hr : w.store.get? b = some r) :
    ∃ r', s'.get? b = some r' ∧ CountsDown memberJobs (completes e ++ done) r' := by
  obtain ⟨r', hr', hwire, hwait⟩ := hc.transaction.row hr
  have hdeps : r'.dependencies = memberJobs :=
    (Job.dependencies_of_wiring hwire).trans h.dependencies
  refine ⟨r', hr', hdeps, fun hw' ↦ ?_⟩
  have hcount := h.count (hwait hw')
  rw [Job.listed_of_wiring hwire]
  cases hc.transaction with
  | quiet hnone hq =>
    obtain ⟨q, hq', hsame⟩ := hq.sameCounts.row hr
    rw [hr', Option.some.injEq] at hq'
    rw [hnone, List.nil_append, hq', hsame, hcount]
  | insertion he hcreate =>
    have hsame : r' = r :=
      Option.some.inj (hr'.symm.trans (Store.get?_create_of_some hcreate hr))
    subst he
    rw [hsame, hcount]
    rfl
  | completion hcomp =>
    have hi := hcomp.not_mem ⟨r', hr', hw'⟩
    have hs' : s'.stateOf b = some .waiting := by
      rw [Store.stateOf, hr', Option.map_some, Job.isWaiting_iff.mp hw']
    cases hcomp.row b r hi hr (hwait hw') with
    | swept _ hs =>
      rw [hs'] at hs
      cases hs
    | settled _ _ hs =>
      rw [hs'] at hs
      split at hs <;> cases hs
    | counted _ _ _ hq hwq _ hc =>
      rw [hr', Option.some.injEq] at hq
      have happ : r.listed (completes e ++ done) = r.listed (completes e) + r.listed done :=
        List.countP_append ..
      rw [hq, hc, hcount, happ]
      omega

/-- Through every run the barrier counts down from the length of its list. -/
theorem CountsDown.run (h : CountsDown memberJobs [] r) (hr : w.store.get? b = some r)
    (hrun : Run w done w₁) :
    ∃ r', w₁.store.get? b = some r' ∧ CountsDown memberJobs done r' := by
  induction hrun with
  | refl => exact ⟨r, hr, h⟩
  | step _ hs ih =>
    obtain ⟨r₁, hr₁, h₁⟩ := ih
    obtain ⟨s', hc, rfl⟩ := hs
    exact h₁.step hc hr₁

/-- A run adds to the history what it completes. -/
theorem Run.completed (h : Run w done w₁) : w₁.completed = done ++ w.completed := by
  induction h with
  | refl => rfl
  | @step done w₁ w₂ e _ hs ih =>
    obtain ⟨s', _, rfl⟩ := hs
    show completes e ++ w₁.completed = _
    rw [ih, List.append_assoc]

/-- Members that had not completed before a run are completed in the run. -/
theorem uncompleted_append {before : List JobId} (h : ∀ d ∈ memberJobs, d ∉ before) :
    uncompleted memberJobs (done ++ before) = uncompleted memberJobs done :=
  Finset.filter_congr fun d hd ↦ by
    rw [List.mem_append, not_or]
    exact and_iff_left (h d (List.mem_toFinset.mp hd))

/-- Members that had not completed before a run complete once in it. -/
theorem EachOnce.of_append {before : List JobId} (h : EachOnce memberJobs (done ++ before)) :
    EachOnce memberJobs done := fun d hd ↦ by
  have := h d hd
  rw [List.count_append] at this
  omega

/-- Members that complete at most once count once each. -/
theorem listed_of_eachOnce (hdeps : r.dependencies = memberJobs)
    (honce : EachOnce memberJobs done) :
    r.listed done = (memberJobs.toFinset.filter fun d ↦ d ∈ done).card := by
  have hnodup : (done.filter r.dependsOn).Nodup := by
    rw [List.nodup_iff_count_le_one]
    intro d
    by_cases hd : r.dependsOn d = true
    · rw [List.count_filter hd]
      exact honce d (hdeps ▸ Job.dependsOn_iff.mp hd)
    · rw [List.count_eq_zero_of_not_mem]
      · exact Nat.zero_le 1
      · exact fun hmem ↦ hd (List.mem_filter.mp hmem).2
  rw [Job.listed, List.countP_eq_length_filter, ← List.toFinset_card_of_nodup hnodup]
  congr 1
  ext d
  rw [List.mem_toFinset, List.mem_filter, Finset.mem_filter, List.mem_toFinset,
    Job.dependsOn_iff, hdeps]
  exact and_comm

/-- The counter of a waiting barrier without duplicates counts the uncompleted members. -/
theorem CountsDown.eq_uncompleted (h : CountsDown memberJobs done r)
    (hnodup : memberJobs.Nodup) (honce : EachOnce memberJobs done) (hw : r.isWaiting = true) :
    r.pendingDependencyCount = (uncompleted memberJobs done).card := by
  have hsplit := Finset.card_filter_add_card_filter_not (s := memberJobs.toFinset)
    fun d ↦ d ∈ done
  rw [List.toFinset_card_of_nodup hnodup] at hsplit
  rw [h.count hw, listed_of_eachOnce h.dependencies honce, uncompleted]
  omega

/-- The last completion is listed as often as the counter says. -/
theorem CountsDown.releasedBy {jobs : List JobId} (h : CountsDown memberJobs done r)
    (hnodup : memberJobs.Nodup) (honce : EachOnce memberJobs (jobs ++ done))
    (hw : r.isWaiting = true) (hsome : uncompleted memberJobs done ≠ ∅)
    (hlast : uncompleted memberJobs (jobs ++ done) = ∅) : r.ReleasedBy jobs := by
  have honce₀ : EachOnce memberJobs done := fun d hd ↦ by
    have := honce d hd
    rw [List.count_append] at this
    omega
  have hcount := h.eq_uncompleted hnodup honce₀ hw
  have hpos := Finset.card_pos.mpr (Finset.nonempty_iff_ne_empty.mpr hsome)
  have hall := listed_of_eachOnce h.dependencies honce
  have happ : r.listed (jobs ++ done) = r.listed jobs + r.listed done := List.countP_append ..
  have hsplit := Finset.card_filter_add_card_filter_not (s := memberJobs.toFinset)
    fun d ↦ d ∈ jobs ++ done
  rw [← uncompleted, hlast, Finset.card_empty, List.toFinset_card_of_nodup hnodup] at hsplit
  have hold := h.count hw
  exact ⟨by omega, by omega⟩

/-- At its own enqueueing, the counter of a barrier is right only when its members are
pairwise different and have not completed. -/
theorem nodup_of_counted (hr : w.store.get? b = some r)
    (hcount : r.pendingDependencyCount = memberJobs.length)
    (hwait : memberJobs ≠ [] → r.isWaiting = true) (honce : EachOnce memberJobs w.completed)
    (h : w.NoMissedRelease b memberJobs) :
    memberJobs.Nodup ∧ ∀ d ∈ memberJobs, d ∉ w.completed := by
  by_cases hnil : memberJobs = []
  · rw [hnil]
    exact ⟨List.nodup_nil, fun d hd ↦ absurd hd List.not_mem_nil⟩
  have heq := h.counted [] w r .refl honce hr (hwait hnil)
  rw [hcount, Int.natCast_inj] at heq
  have hsub : uncompleted memberJobs w.completed ⊆ memberJobs.toFinset := Finset.filter_subset ..
  have hle := List.toFinset_card_le memberJobs
  have hall : uncompleted memberJobs w.completed = memberJobs.toFinset :=
    Finset.eq_of_subset_of_card_le hsub (by omega)
  constructor
  · rw [hall, List.card_toFinset] at heq
    exact List.dedup_eq_self.mp ((List.dedup_sublist memberJobs).eq_of_length heq.symm)
  · intro d hd
    rw [← List.mem_toFinset, ← hall] at hd
    exact (Finset.mem_filter.mp hd).2

end Run

/-- **Group barriers**: the counter of a barrier that a group has just enqueued is right in
every run if and only if no two members get the same job and none of their jobs has
completed before. -/
theorem noMissedRelease_iff {env : DelayEnv} {fuel : Nat} {g : Ref} {st st' : Session}
    {memberJobs : List JobId} {args : EnqueueArgs} {s' : Store} {b : JobId} {w : World}
    (hk : st.Known) (hb : GroupBarrier env fuel g st memberJobs st' args)
    (henq : JobWorker.enqueue env.orm env.now st'.store args = .ok (s', b))
    (hnew : st'.store.get? b = none) (hw : w.store = s')
    (honce : EachOnce memberJobs w.completed) :
    w.NoMissedRelease b memberJobs ↔
      DistinctMembers env fuel g st ∧ ∀ d ∈ memberJobs, d ∉ w.completed := by
  rw [← hb.nodup_iff hk]
  obtain ⟨r₀, hr, hdeps, hcount, hwait⟩ := hb.row henq hnew
  rw [← hw] at hr
  have hstart : CountsDown memberJobs [] r₀ :=
    ⟨hdeps, fun _ ↦ by rw [hcount]; simp [Job.listed]⟩
  constructor
  · exact nodup_of_counted hr hcount hwait honce
  rintro ⟨hnodup, hfresh⟩
  refine ⟨fun done w₁ r hrun honce hr₁ hwait ↦ ?_,
    fun done w₁ e w₂ r hrun hs honce hsome hlast hr₁ hwait ↦ ?_⟩
  · obtain ⟨r', hr', hdown⟩ := hstart.run hr hrun
    rw [hr₁, Option.some.injEq] at hr'
    rw [hrun.completed] at honce ⊢
    rw [uncompleted_append hfresh]
    exact (hr' ▸ hdown).eq_uncompleted hnodup honce.of_append hwait
  · obtain ⟨r', hr', hdown⟩ := hstart.run hr hrun
    rw [hr₁, Option.some.injEq] at hr'
    rw [hrun.completed, uncompleted_append hfresh] at hsome
    rw [(hrun.step hs).completed] at honce hlast
    rw [uncompleted_append hfresh] at hlast
    have hrel := (hr' ▸ hdown).releasedBy hnodup honce.of_append hwait hsome hlast
    obtain ⟨s₂, hc, rfl⟩ := hs
    have hne : completes e ≠ [] := by
      rintro hnone
      rw [hnone, List.nil_append] at hlast
      exact hsome hlast
    cases hc.transaction with
    | quiet hnone _ => exact absurd hnone hne
    | insertion he _ => exact absurd (by rw [he]; rfl) hne
    | completion hcomp =>
      by_cases hbe : b ∈ completes e
      · exact .completed hbe (hcomp.done b r hbe hr₁)
      cases hcomp.row b r hbe hr₁ hwait with
      | swept hswept hstate => exact .swept hbe hswept hstate
      | settled hns _ hstate => exact .released hbe hns hstate
      | counted _ _ hno => exact absurd hrel hno

/-- A group of the delayables 1 and `second` with the callback 3, at object 0. -/
def pairGroup (second : Ref) : Session where
  heap r :=
    if r = 0 then { cls := .group [1, second], nextDelayables := [3] }
    else { cls := .delayable { modelName := "res.partner", jobMethod := some "ping" } {} none }
  store := .empty

/-- The call of `delay` on the group up to the job of its callback: the jobs of the members,
the callbacks, the barrier, and whether its row is new. -/
def delayPair (second : Ref) : Delaying (List JobId × List Ref × JobId × Bool) := do
  let graphUuid ← graphUuidOf 0
  let memberJobs ← delayMembers (delay {} 3) 0 graphUuid [1, second]
  let g ← read 0
  assign 3 (wireNext graphUuid memberJobs)
  let c ← read 3
  match c.cls with
  | .delayable call properties none =>
    match call.jobMethod with
    | none => Delaying.throw .attributeError
    | some method =>
      let args := delayableArgs 0 call method properties c.graphUuid c
      onStore fun s ↦ do
        let (s', b) ← JobWorker.enqueue {} 0 s args
        return (s', memberJobs, g.nextDelayables, b, (s.get? b).isNone)
  | _ => Delaying.throw .attributeError

/-- The delayables of the group have generated no job. -/
theorem known_pairGroup (second : Ref) : (pairGroup second).Known := by
  intro r call properties j h
  unfold pairGroup at h
  dsimp only at h
  split at h <;> cases h

/-- The value of `delayPair`. -/
def delayedPair (second : Ref) : Option (List JobId × List Ref × JobId × Bool) :=
  match (delayPair second (pairGroup second)).run with
  | some (.ok (out, _)) => some out
  | _ => none

/-- The barrier of the pair is a group barrier with a new row. -/
theorem exists_groupBarrier {second : Ref} {memberJobs : List JobId} {b : JobId}
    (h : delayedPair second = some (memberJobs, [3], b, true)) :
    ∃ st' args s', GroupBarrier {} 3 0 (pairGroup second) memberJobs st' args ∧
      JobWorker.enqueue {} 0 st'.store args = .ok (s', b) ∧ st'.store.get? b = none := by
  have hrun : ∃ st,
      Returns (delayPair second) (pairGroup second) (memberJobs, [3], b, true) st := by
    unfold delayedPair at h
    unfold Returns
    split at h
    · next out st heq =>
      rw [Option.some.injEq] at h
      exact ⟨st, by rw [heq, h]⟩
    · cases h
  obtain ⟨st, hrun⟩ := hrun
  obtain ⟨graphUuid, st₁, hu, hrun⟩ := returns_bind.mp hrun
  obtain ⟨ids, st₂, hm, hrun⟩ := returns_bind.mp hrun
  obtain ⟨g, st₃, hg, hrun⟩ := returns_bind.mp hrun
  obtain ⟨_, st₄, ha, hrun⟩ := returns_bind.mp hrun
  obtain ⟨c, st₅, hc, hrun⟩ := returns_bind.mp hrun
  cases hg
  cases hc
  split at hrun
  · next call properties hcls =>
    split at hrun
    · cases hrun
    · next method hmethod =>
      obtain ⟨s, henq, _⟩ := returns_onStore.mp hrun
      obtain ⟨⟨s', b'⟩, henq', hout⟩ := bind_eq_ok.mp henq
      simp only [pure, Except.pure, Except.ok.injEq, Prod.mk.injEq,
        Option.isNone_iff_eq_none] at hout
      obtain ⟨_, rfl, hnext, rfl, hnew⟩ := hout
      refine ⟨st₄, _, s', ⟨[1, second], 3, call, properties, method, (st₄.heap 3).graphUuid, rfl,
        .next hu hm ?_, hcls, hmethod, rfl⟩, henq', hnew⟩
      rw [hnext]
      exact .here ha
  · cases hrun

/-- A member that is listed twice counts twice, and its barrier never gets to zero. -/
theorem not_noMissedRelease_memberTwice :
    ¬ ∀ (env : DelayEnv) (fuel : Nat) (g : Ref) (st st' : Session) (memberJobs : List JobId)
      (args : EnqueueArgs) (s' : Store) (b : JobId) (w : World), st.Known →
      GroupBarrier env fuel g st memberJobs st' args →
      JobWorker.enqueue env.orm env.now st'.store args = .ok (s', b) →
      st'.store.get? b = none → w.store = s' → EachOnce memberJobs w.completed →
      w.NoMissedRelease b memberJobs := by
  intro hall
  have heval : delayedPair 1 = some ([1, 1], [3], 2, true) := by decide +kernel
  obtain ⟨st', args, s', hb, henq, hnew⟩ := exists_groupBarrier heval
  obtain ⟨r, hr, _, hcount, hwait⟩ := hb.row henq hnew
  have honce : EachOnce [1, 1] (World.completed { store := s', now := 0 }) :=
    fun d _ ↦ Nat.zero_le 1
  have hnodup := nodup_of_counted (w := { store := s', now := 0 }) hr hcount hwait honce
    (hall {} 3 0 _ st' _ args s' 2 _ (known_pairGroup 1) hb henq hnew rfl honce)
  exact absurd hnodup.1 (by decide)

/-- Two delayables in a group: the counter of their barrier is right. -/
theorem noMissedRelease_iff_pair : ∃ (st' : Session) (args : EnqueueArgs) (s' : Store),
    GroupBarrier {} 3 0 (pairGroup 2) [1, 2] st' args ∧
    JobWorker.enqueue {} 0 st'.store args = .ok (s', 3) ∧
    World.NoMissedRelease { store := s', now := 0 } 3 [1, 2] := by
  have heval : delayedPair 2 = some ([1, 2], [3], 3, true) := by decide +kernel
  obtain ⟨st', args, s', hb, henq, hnew⟩ := exists_groupBarrier heval
  have hdiffer := (hb.nodup_iff (known_pairGroup 2)).mp (by decide)
  refine ⟨st', args, s', hb, henq,
    (noMissedRelease_iff (known_pairGroup 2) hb henq hnew rfl ?_).mpr ⟨hdiffer, ?_⟩⟩
  · exact fun d _ ↦ Nat.zero_le 1
  · exact fun d _ ↦ List.not_mem_nil

end World
end JobWorker
