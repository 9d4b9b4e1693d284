import JobWorker.Monitor.QueueJobMetric

/-!
# The totals of a snapshot

`_collect_5min_snapshot` groups by the nullable column and fills its dicts by the label, so the
groups of NULL and of `'root'` meet in one entry
(`job_worker_monitor/models/queue_job_metric.py:54–103`).
-/

namespace JobWorker

open Relational

/-- The rows of a snapshot sum to the counts of the table, one row for each reported label. -/
structure Conserves (now : Time) (jobs : List Job) (rows : List QueueJobMetric) : Prop where
  completed : (rows.map fun m ↦ m.jobsCompleted).sum =
    jobs.countP fun r ↦ r.state == .done && r.completedInWindow now
  failed : (rows.map fun m ↦ m.jobsFailed).sum =
    jobs.countP fun r ↦ r.state == .failed && r.completedInWindow now
  queueDepth : (rows.map fun m ↦ m.queueDepth).sum = jobs.countP Job.isQueued
  nodup : (rows.map fun m ↦ m.channel).Nodup
  reported : ∀ label, label ∈ rows.map (fun m ↦ m.channel) ↔
    ∃ r ∈ jobs, (r.completedInWindow now = true ∨ r.isLive = true) ∧
      Job.channelLabel r.channel = label

/-- The group of this channel comes before the other group of its label. -/
def OverwrittenGroup (order : List (Option String)) (channel : Option String) : Prop :=
  channel = none ∧ [none, some "root"].Sublist order ∨
    channel = some "root" ∧ [some "root", none].Sublist order

section Groups

variable {order : List (Option String)} {channel : Option String}

/-- Two channels have one label only if they are NULL and `'root'`. -/
theorem overwrittenGroup_iff (horder : order.Nodup) :
    OverwrittenGroup order channel ↔ ∃ channel' : Option String,
      Job.channelLabel channel' = Job.channelLabel channel ∧ [channel, channel'].Sublist order := by
  constructor
  · rintro (⟨rfl, h⟩ | ⟨rfl, h⟩)
    · exact ⟨some "root", rfl, h⟩
    · exact ⟨none, rfl, h⟩
  · rintro ⟨channel', hlabel, h⟩
    have hne : channel ≠ channel' := by simpa using horder.sublist h
    cases channel with
    | none =>
      cases channel' with
      | none => exact absurd rfl hne
      | some c' =>
        cases hlabel
        exact .inl ⟨rfl, h⟩
    | some c =>
      cases channel' with
      | none =>
        cases hlabel
        exact .inr ⟨rfl, h⟩
      | some c' =>
        cases hlabel
        exact absurd rfl hne

/-- The rows of one query, as a list of labels with the aggregates of their groups. -/
def labelled {ν : Type} (agg : List Job → ν) (rows : List Job) (order : List (Option String)) :
    List (String × ν) :=
  order.map fun channel ↦ (Job.channelLabel channel, agg (group Job.channel rows channel))

section Columns

variable {ν : Type} {agg : List Job → ν} {f : ν → Nat} {p : Job → Bool} {rows : List Job}

theorem sum_labelled (hf : ∀ rows, f (agg rows) = rows.countP p)
    (horder : GroupOrder Job.channel rows order) :
    ((labelled agg rows order).map fun r ↦ f r.2).sum = rows.countP p := by
  rw [← sum_countP_group horder.nodup p fun r hr ↦ (horder.mem_iff _).mpr ⟨r, hr, rfl⟩,
    labelled, List.map_map]
  simp only [Function.comp_def, hf]

/-- The groups that the dict loses. -/
theorem mem_overwritten_labelled (horder : order.Nodup) {r : String × ν} :
    r ∈ overwritten (labelled agg rows order) ↔ ∃ channel, OverwrittenGroup order channel ∧
      r = (Job.channelLabel channel, agg (group Job.channel rows channel)) := by
  rw [mem_overwritten]
  constructor
  · rintro ⟨q, hkey, h⟩
    obtain ⟨pair, hpair, heq⟩ := List.sublist_map_iff.mp h
    obtain ⟨channel, rest, rfl, rfl, htail⟩ := List.map_eq_cons_iff.mp heq.symm
    obtain ⟨channel', rest', rfl, rfl, hnil⟩ := List.map_eq_cons_iff.mp htail
    cases List.map_eq_nil_iff.mp hnil
    exact ⟨channel, (overwrittenGroup_iff horder).mpr ⟨channel', hkey, hpair⟩, rfl⟩
  · rintro ⟨channel, h, rfl⟩
    obtain ⟨channel', hlabel, h⟩ := (overwrittenGroup_iff horder).mp h
    exact ⟨(Job.channelLabel channel', agg (group Job.channel rows channel')), hlabel,
      h.map fun c ↦ (Job.channelLabel c, agg (group Job.channel rows c))⟩

/-- A column keeps its total exactly if no lost group counts for it. -/
theorem sum_column_iff (hf : ∀ rows, f (agg rows) = rows.countP p)
    (horder : GroupOrder Job.channel rows order) {keys : List String} (hkeys : keys.Nodup)
    (hsub : dictKeys (labelled agg rows order) ⊆ keys) :
    (keys.map fun k ↦ (dictGet (labelled agg rows order) k).elim 0 f).sum = rows.countP p ↔
      ∀ r ∈ rows, p r = true → ¬ OverwrittenGroup order r.channel := by
  rw [← sum_labelled hf horder, sum_keys_eq_iff f hkeys hsub]
  constructor
  · intro h r hr hp hover
    have hzero := h _ ((mem_overwritten_labelled horder.nodup).mpr ⟨r.channel, hover, rfl⟩)
    rw [hf, List.countP_eq_zero] at hzero
    exact hzero r (by simp [group, hr]) hp
  · intro h q hq
    obtain ⟨channel, hover, rfl⟩ := (mem_overwritten_labelled horder.nodup).mp hq
    rw [hf, List.countP_eq_zero]
    intro r hr hp
    obtain ⟨hr, hchannel⟩ := List.mem_filter.mp hr
    exact h r hr hp (of_decide_eq_true hchannel ▸ hover)

end Columns

end Groups

section Snapshot

variable {now transactionNow : Time} {jobs : List Job}
  {completedOrder liveOrder : List (Option String)}

theorem mem_dictKeys_labelled {ν : Type} {agg : List Job → ν} {rows : List Job}
    {order : List (Option String)} (horder : GroupOrder Job.channel rows order) {label : String} :
    label ∈ dictKeys (labelled agg rows order) ↔
      ∃ r ∈ rows, Job.channelLabel r.channel = label := by
  rw [mem_dictKeys]
  constructor
  · rintro ⟨q, hq, hlabel⟩
    obtain ⟨channel, hchannel, rfl⟩ := List.mem_map.mp hq
    obtain ⟨r, hr, rfl⟩ := (horder.mem_iff channel).mp hchannel
    exact ⟨r, hr, hlabel⟩
  · rintro ⟨r, hr, hlabel⟩
    exact ⟨_, List.mem_map_of_mem ((horder.mem_iff _).mpr ⟨r, hr, rfl⟩), hlabel⟩

theorem isLive_of_isQueued {r : Job} (h : r.isQueued = true) : r.isLive = true := by
  simp only [Job.isQueued, Bool.or_eq_true] at h
  simp only [Job.isLive, Bool.or_eq_true]
  exact .inl h

/-- A snapshot keeps all totals exactly if of the groups of NULL and `'root'`, where a query
returns both, the first has nothing to report. -/
theorem collect5minSnapshot_conserves_iff
    (hcompleted : GroupOrder Job.channel (jobs.filter (·.completedInWindow now)) completedOrder)
    (hlive : GroupOrder Job.channel (jobs.filter Job.isLive) liveOrder) :
    Conserves now jobs (collect5minSnapshot now transactionNow jobs completedOrder liveOrder) ↔
      (∀ r ∈ jobs, r.completedInWindow now = true → r.state = .done ∨ r.state = .failed →
        ¬ OverwrittenGroup completedOrder r.channel) ∧
      ∀ r ∈ jobs, r.isQueued = true → ¬ OverwrittenGroup liveOrder r.channel := by
  let completed := labelled completedAggregates (jobs.filter (·.completedInWindow now))
    completedOrder
  let live := labelled (liveAggregates transactionNow) (jobs.filter Job.isLive) liveOrder
  let keys := (dictKeys completed ++ dictKeys live).dedup
  have hrows : collect5minSnapshot now transactionNow jobs completedOrder liveOrder =
      keys.map fun channel ↦
        snapshotRow now channel (dictGet completed channel) (dictGet live channel) := rfl
  have hnodup : keys.Nodup := List.nodup_dedup _
  have hsub : dictKeys completed ⊆ keys :=
    fun k hk ↦ List.mem_dedup.mpr (List.mem_append_left _ hk)
  have hsub' : dictKeys live ⊆ keys :=
    fun k hk ↦ List.mem_dedup.mpr (List.mem_append_right _ hk)
  have hdone := sum_column_iff (f := CompletedStats.completed) (fun _ ↦ rfl) hcompleted hnodup hsub
  have hfailed := sum_column_iff (f := CompletedStats.failed) (fun _ ↦ rfl) hcompleted hnodup hsub
  have hdepth := sum_column_iff (f := LiveStats.queueDepth) (fun _ ↦ rfl) hlive hnodup hsub'
  have hqueued : jobs.countP (fun r ↦ r.isQueued && r.isLive) = jobs.countP Job.isQueued :=
    List.countP_congr fun r _ ↦ by simpa using isLive_of_isQueued
  rw [List.countP_filter] at hdone hfailed hdepth
  rw [hqueued] at hdepth
  simp only [List.mem_filter, and_imp, beq_iff_eq] at hdone hfailed hdepth
  rw [hrows]
  constructor
  · rintro ⟨hsum, hsum', hsum'', _, _⟩
    rw [List.map_map] at hsum hsum' hsum''
    constructor
    · rintro r hr hw (hstate | hstate)
      · exact hdone.mp hsum r hr hw hstate
      · exact hfailed.mp hsum' r hr hw hstate
    · intro r hr hq
      exact hdepth.mp hsum'' r hr (isLive_of_isQueued hq) hq
  · rintro ⟨hstats, hqueue⟩
    constructor
    · rw [List.map_map]
      exact hdone.mpr fun r hr hw hstate ↦ hstats r hr hw (.inl hstate)
    · rw [List.map_map]
      exact hfailed.mpr fun r hr hw hstate ↦ hstats r hr hw (.inr hstate)
    · rw [List.map_map]
      exact hdepth.mpr fun r hr _ hq ↦ hqueue r hr hq
    · rw [List.map_map]
      exact hnodup.map_on fun _ _ _ _ h ↦ h
    · intro label
      rw [List.map_map]
      show label ∈ keys.map id ↔ _
      rw [List.map_id, List.mem_dedup, List.mem_append, mem_dictKeys_labelled hcompleted,
        mem_dictKeys_labelled hlive]
      simp only [List.mem_filter, or_and_right, and_or_left, exists_or, and_assoc]

end Snapshot

/-- A finished job of a channel, at the time of the snapshot. -/
def doneJob (channel : Option String) : Job :=
  { payload := .ping, state := .done, channel := channel, completedAt := some 0 }

theorem groupOrder_doneJobs {channels : List (Option String)} (h : channels.Nodup) :
    GroupOrder Job.channel ((channels.map doneJob).filter (·.completedInWindow 0)) channels := by
  have hall : (channels.map doneJob).filter (·.completedInWindow 0) = channels.map doneJob :=
    List.filter_eq_self.mpr fun r hr ↦ by
      obtain ⟨channel, _, rfl⟩ := List.mem_map.mp hr
      rfl
  rw [hall]
  exact ⟨h, fun k ↦ by simp [doneJob]⟩

theorem groupOrder_doneJobs_live (channels : List (Option String)) :
    GroupOrder Job.channel ((channels.map doneJob).filter Job.isLive) [] := by
  have hnone : (channels.map doneJob).filter Job.isLive = [] :=
    List.filter_eq_nil_iff.mpr fun r hr ↦ by
      obtain ⟨channel, _, rfl⟩ := List.mem_map.mp hr
      exact Bool.false_ne_true
  rw [hnone]
  exact ⟨List.nodup_nil, fun _ ↦ by simp⟩

/-- The first of the two groups of one label is lost. -/
theorem not_conserves_nullChannel :
    GroupOrder Job.channel ([doneJob none, doneJob (some "root")].filter (·.completedInWindow 0))
        [none, some "root"] ∧
      GroupOrder Job.channel ([doneJob none, doneJob (some "root")].filter Job.isLive) [] ∧
      ¬ Conserves 0 [doneJob none, doneJob (some "root")]
        (collect5minSnapshot 0 0 [doneJob none, doneJob (some "root")] [none, some "root"] []) := by
  have hnodup : [none, some "root"].Nodup := by decide
  refine ⟨groupOrder_doneJobs hnodup, groupOrder_doneJobs_live [none, some "root"], fun h ↦ ?_⟩
  exact absurd h.completed (by decide +kernel)

/-- A NULL channel beside another one. -/
theorem collect5minSnapshot_conserves_nullChannel :
    Conserves 0 [doneJob none, doneJob (some "mail")]
      (collect5minSnapshot 0 0 [doneJob none, doneJob (some "mail")] [none, some "mail"] []) := by
  have hnodup : [none, some "mail"].Nodup := by decide
  refine (collect5minSnapshot_conserves_iff (groupOrder_doneJobs hnodup)
    (groupOrder_doneJobs_live [none, some "mail"])).mpr ⟨fun r _ _ _ ↦ ?_, fun r _ _ ↦ ?_⟩
  · rintro (⟨_, h⟩ | ⟨_, h⟩)
    · exact absurd h (by decide)
    · exact absurd h (by decide)
  · rintro (⟨_, h⟩ | ⟨_, h⟩)
    · exact absurd h (by decide)
    · exact absurd h (by decide)

end JobWorker
