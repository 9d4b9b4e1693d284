import JobWorker.Monitor.Totals

/-!
# The two stages of a rollup

An hourly row carries the end of its window as its label, and `_rollup_daily` selects labels in
a half-open interval: the daily row of `D` aggregates the 5-minute rows in `[D - 25h, D - 1h)`
(`job_worker_monitor/models/queue_job_metric.py:131–238`).
-/

namespace JobWorker

open Relational Transition QueueJobMetric

/-- The rows that an action creates. -/
def MetricStore.created (s : MetricStore) : MetricAction → List QueueJobMetric
  | .elapse _ => []
  | .collect rows => fiveMinuteRows s.now rows
  | .rollupHourly =>
    let hourStart := startOfHour (datetimeNow s.now)
    rollup .fiveMinutes .hour (hourStart - hour) hourStart s.metrics
  | .rollupDaily =>
    let dayStart := startOfDay (datetimeNow s.now)
    rollup .hour .day (dayStart - day) dayStart s.metrics

/-- The 5-minute rows that an action brings in. -/
def MetricStore.collectedBy (s : MetricStore) : MetricAction → List QueueJobMetric
  | .collect rows => fiveMinuteRows s.now rows
  | .elapse _ | .rollupHourly | .rollupDaily => []

/-- The 5-minute rows that came in over a run, the newest first. -/
def collected (past : List (MetricStore × MetricAction)) : List QueueJobMetric :=
  past.flatMap fun p ↦ p.1.collectedBy p.2

/-- How often `_rollup_hourly` has run within the hour from `label`. -/
def hourlyRuns (label : Time) (past : List (MetricStore × MetricAction)) : Nat :=
  past.countP fun p ↦
    decide (p.2 = .rollupHourly ∧ startOfHour (datetimeNow p.1.now) = label)

/-- How often `_rollup_daily` has run within the day from `label`. -/
def dailyRuns (label : Time) (past : List (MetricStore × MetricAction)) : Nat :=
  past.countP fun p ↦
    decide (p.2 = .rollupDaily ∧ startOfDay (datetimeNow p.1.now) = label)

/-- No cleanup at this time deletes rows of the period with labels from `start` on. -/
def Retained (period : MetricPeriod) (start now : Time) : Prop :=
  match period with
  | .fiveMinutes => datetimeNow now - 7 * day ≤ start
  | .hour => datetimeNow now - 90 * day ≤ start
  | .day => True

section Windows

variable {period : MetricPeriod} {a b c : Time} {metrics : List QueueJobMetric}

theorem selectWindow_append (rows : List QueueJobMetric) :
    selectWindow period a b (rows ++ metrics) =
      selectWindow period a b rows ++ selectWindow period a b metrics :=
  List.filter_append ..

/-- A cleanup does not reach into a window that is kept. -/
theorem selectWindow_unlinkBefore {target : MetricPeriod} {cutoff : Time}
    (h : target = period → cutoff ≤ a) :
    selectWindow period a b (unlinkBefore target cutoff metrics) =
      selectWindow period a b metrics := by
  rw [selectWindow, unlinkBefore, List.filter_filter]
  apply List.filter_congr
  intro m _
  by_cases hm : m.period = target ∧ m.snapshotAt < cutoff
  · have hout : ¬ (m.period = period ∧ a ≤ m.snapshotAt ∧ m.snapshotAt < b) := by
      rintro ⟨hperiod, hle, _⟩
      exact absurd (h (hm.1.symm.trans hperiod)) (not_le.mpr (hle.trans_lt hm.2))
    simp [hout]
  · simp [hm]

/-- A window falls into two. -/
theorem selectWindow_perm (hab : a ≤ b) (hbc : b ≤ c) :
    (selectWindow period b c metrics ++ selectWindow period a b metrics).Perm
      (selectWindow period a c metrics) := by
  have hlate : selectWindow period b c metrics =
      (selectWindow period a c metrics).filter fun m ↦ decide (b ≤ m.snapshotAt) := by
    rw [selectWindow, selectWindow, List.filter_filter]
    apply List.filter_congr
    intro m _
    rw [← Bool.decide_and, decide_eq_decide]
    constructor
    · rintro ⟨hperiod, hb, hc⟩
      exact ⟨hb, hperiod, hab.trans hb, hc⟩
    · rintro ⟨hb, hperiod, _, hc⟩
      exact ⟨hperiod, hb, hc⟩
  have hearly : selectWindow period a b metrics =
      (selectWindow period a c metrics).filter fun m ↦ !decide (b ≤ m.snapshotAt) := by
    rw [selectWindow, selectWindow, List.filter_filter]
    apply List.filter_congr
    intro m _
    rw [← decide_not, ← Bool.decide_and, decide_eq_decide, not_le]
    constructor
    · rintro ⟨hperiod, ha, hb⟩
      exact ⟨hb, hperiod, ha, hb.trans_le hbc⟩
    · rintro ⟨hb, hperiod, ha, _⟩
      exact ⟨hperiod, ha, hb⟩
  rw [hlate, hearly]
  exact List.filter_append_perm _ _

/-- A window falls into windows of one length. -/
theorem flatMap_selectWindow_perm {w : Time} (hw : 0 ≤ w) (n : Nat) :
    ((List.range n).flatMap fun k ↦
        selectWindow period (c - (k + 1 : Nat) * w) (c - k * w) metrics).Perm
      (selectWindow period (c - n * w) c metrics) := by
  induction n with
  | zero =>
    have hempty : selectWindow period (c - (0 : Nat) * w) c metrics = [] := by
      apply List.filter_eq_nil_iff.mpr
      intro m _ hm
      obtain ⟨_, hle, hlt⟩ := of_decide_eq_true hm
      rw [Nat.cast_zero, zero_mul, sub_zero] at hle
      exact absurd hlt (not_lt.mpr hle)
    rw [hempty]
    exact .refl _
  | succ n ih =>
    have hn : c - (n + 1 : Nat) * w ≤ c - n * w := by
      rw [Nat.cast_succ, Int.add_mul]
      linarith
    have hnc : c - n * w ≤ c := sub_le_self _ (Int.mul_nonneg (Int.natCast_nonneg n) hw)
    rw [List.range_succ, List.flatMap_append, List.flatMap_singleton]
    exact (ih.append_right _).trans (selectWindow_perm hn hnc)

/-- Rows of one period with one label are in a window together or not at all. -/
theorem selectWindow_of_labelled {target : MetricPeriod} {label : Time}
    (h : ∀ m ∈ metrics, m.period = target ∧ m.snapshotAt = label) :
    selectWindow period a b metrics =
      if target = period ∧ a ≤ label ∧ label < b then metrics else [] := by
  split
  · rename_i hin
    apply List.filter_eq_self.mpr
    intro m hm
    obtain ⟨rfl, rfl⟩ := h m hm
    exact decide_eq_true hin
  · rename_i hout
    apply List.filter_eq_nil_iff.mpr
    intro m hm
    obtain ⟨rfl, rfl⟩ := h m hm
    simpa using hout

theorem rollup_labelled (source target : MetricPeriod) (windowStart label : Time) :
    ∀ m ∈ rollup source target windowStart label metrics,
      m.period = target ∧ m.snapshotAt = label := by
  intro m hm
  obtain ⟨_, _, rfl⟩ := List.mem_map.mp hm
  exact ⟨rfl, rfl⟩

theorem fiveMinuteRows_labelled (now : Time) (rows : List (String × MetricValues)) :
    ∀ m ∈ fiveMinuteRows now rows, m.period = .fiveMinutes ∧ m.snapshotAt = datetimeNow now := by
  intro m hm
  obtain ⟨_, _, rfl⟩ := List.mem_map.mp hm
  exact ⟨rfl, rfl⟩

/-- A window of another period has none of these rows. -/
theorem selectWindow_of_period_ne {target : MetricPeriod} {label : Time}
    (h : ∀ m ∈ metrics, m.period = target ∧ m.snapshotAt = label) (hne : target ≠ period) :
    selectWindow period a b metrics = [] := by
  rw [selectWindow_of_labelled h, if_neg fun hp ↦ hne hp.1]

/-- The rows of a rollup are in the window that begins at their label. -/
theorem selectWindow_rollup {source target : MetricPeriod} {start label w : Time}
    (hwindow : label ≤ start ∧ start < label + w ↔ start = label) :
    selectWindow target label (label + w) (rollup source target (start - w) start metrics) =
      if start = label then rollup source target (label - w) label metrics else [] := by
  rw [selectWindow_of_labelled (rollup_labelled _ _ _ _)]
  by_cases h : start = label
  · rw [if_pos ⟨rfl, hwindow.mpr h⟩, if_pos h, h]
  · rw [if_neg fun hp ↦ h (hwindow.mp hp.2), if_neg h]

/-- A rollup reads its window only. -/
theorem rollup_congr {source target : MetricPeriod} {label : Time} {metrics' : List QueueJobMetric}
    (h : selectWindow source a label metrics = selectWindow source a label metrics') :
    rollup source target a label metrics = rollup source target a label metrics' := by
  rw [rollup, rollup, h]

end Windows

section Steps

variable (period : MetricPeriod) {s : MetricStore} {act : MetricAction} {a b : Time}

/-- What an action leaves in a window that is kept. -/
theorem selectWindow_next (h : Retained period a s.now) :
    selectWindow period a b (s.next act).metrics =
      selectWindow period a b (s.created act) ++ selectWindow period a b s.metrics := by
  cases act with
  | elapse => rfl
  | collect => exact selectWindow_append _
  | rollupHourly =>
    rw [← selectWindow_append]
    apply selectWindow_unlinkBefore
    rintro rfl
    exact h
  | rollupDaily =>
    rw [← selectWindow_append]
    apply selectWindow_unlinkBefore
    rintro rfl
    exact h

/-- Of the rows that an action creates, those of 5 minutes come in. -/
theorem selectWindow_created_fiveMinutes :
    selectWindow .fiveMinutes a b (s.created act) =
      selectWindow .fiveMinutes a b (s.collectedBy act) := by
  cases act with
  | elapse | collect => rfl
  | rollupHourly | rollupDaily =>
    exact selectWindow_of_period_ne (rollup_labelled _ _ _ _) nofun

/-- The hour from `label` on has its start there. -/
theorem startOfHour_eq_iff {now label : Time} (hlabel : label % hour = 0) :
    label ≤ startOfHour now ∧ startOfHour now < label + hour ↔ startOfHour now = label := by
  unfold startOfHour hour second
  unfold hour second at hlabel
  dsimp only [Time] at *
  omega

/-- The day from `label` on has its start there. -/
theorem startOfDay_eq_iff {now label : Time} (hlabel : label % day = 0) :
    label ≤ startOfDay now ∧ startOfDay now < label + day ↔ startOfDay now = label := by
  unfold startOfDay day second
  unfold day second at hlabel
  dsimp only [Time] at *
  omega

/-- The hourly rows with a label are created by a rollup in the hour from it. -/
theorem selectWindow_created_hour {label : Time} (hlabel : label % hour = 0) :
    selectWindow .hour label (label + hour) (s.created act) =
      if act = .rollupHourly ∧ startOfHour (datetimeNow s.now) = label then
        rollup .fiveMinutes .hour (label - hour) label s.metrics
      else [] := by
  cases act with
  | elapse => rfl
  | collect => exact selectWindow_of_period_ne (fiveMinuteRows_labelled _ _) nofun
  | rollupHourly =>
    simp only [true_and]
    exact selectWindow_rollup (startOfHour_eq_iff hlabel)
  | rollupDaily => exact selectWindow_of_period_ne (rollup_labelled _ _ _ _) nofun

/-- The daily rows with a label are created by a rollup on the day from it. -/
theorem selectWindow_created_day {label : Time} (hlabel : label % day = 0) :
    selectWindow .day label (label + day) (s.created act) =
      if act = .rollupDaily ∧ startOfDay (datetimeNow s.now) = label then
        rollup .hour .day (label - day) label s.metrics
      else [] := by
  cases act with
  | elapse => rfl
  | collect => exact selectWindow_of_period_ne (fiveMinuteRows_labelled _ _) nofun
  | rollupHourly => exact selectWindow_of_period_ne (rollup_labelled _ _ _ _) nofun
  | rollupDaily =>
    simp only [true_and]
    exact selectWindow_rollup (startOfDay_eq_iff hlabel)

end Steps

section Runs

variable {past earlier later : List (MetricStore × MetricAction)} {s s' : MetricStore}
  {act : MetricAction} {a b label : Time}

/-- The clock of the table does not run back. -/
theorem datetimeNow_le_next : datetimeNow s.now ≤ datetimeNow (s.next act).now := by
  cases act with
  | elapse d =>
    show datetimeNow s.now ≤ datetimeNow (s.now + d)
    unfold datetimeNow second
    dsimp only [Time]
    omega
  | _ => exact le_rfl

theorem collected_cons : collected ((s, act) :: past) = s.collectedBy act ++ collected past := rfl

/-- What comes in now is in no window that is over. -/
theorem selectWindow_collectedBy (hb : b ≤ datetimeNow s.now) :
    selectWindow .fiveMinutes a b (s.collectedBy act) = [] := by
  cases act with
  | collect rows =>
    rw [MetricStore.collectedBy, selectWindow_of_labelled (fiveMinuteRows_labelled _ _),
      if_neg fun h ↦ not_le.mpr h.2.2 hb]
  | _ => rfl

/-- What comes in later is in no window that is over. -/
theorem selectWindow_collected_later
    (h : Run (· = s) (fun s a s' ↦ MetricStore.next s a = s') later s')
    (hb : b ≤ datetimeNow s.now) :
    selectWindow .fiveMinutes a b (collected later) = [] ∧ b ≤ datetimeNow s'.now := by
  induction h with
  | start h =>
    cases h
    exact ⟨rfl, hb⟩
  | step h hs ih =>
    cases hs
    obtain ⟨hnil, hle⟩ := ih
    rw [collected_cons, selectWindow_append, selectWindow_collectedBy hle, hnil]
    exact ⟨rfl, hle.trans datetimeNow_le_next⟩

/-- The table has all 5-minute rows of the last seven days. -/
theorem selectWindow_metrics (h : MetricRun past s) (hkept : datetimeNow s.now - 7 * day ≤ a) :
    selectWindow .fiveMinutes a b s.metrics = selectWindow .fiveMinutes a b (collected past) := by
  induction h with
  | start h =>
    obtain ⟨now, rfl⟩ := h
    rfl
  | step h hs ih =>
    cases hs
    have hprev := (sub_le_sub_right datetimeNow_le_next _).trans hkept
    rw [selectWindow_next .fiveMinutes hprev, selectWindow_created_fiveMinutes, collected_cons,
      selectWindow_append, ih hprev]

theorem hourlyRuns_cons : hourlyRuns label ((s, act) :: past) = hourlyRuns label past +
    if act = .rollupHourly ∧ startOfHour (datetimeNow s.now) = label then 1 else 0 := by
  simp only [hourlyRuns, List.countP_cons, decide_eq_true_eq]

theorem dailyRuns_cons : dailyRuns label ((s, act) :: past) = dailyRuns label past +
    if act = .rollupDaily ∧ startOfDay (datetimeNow s.now) = label then 1 else 0 := by
  simp only [dailyRuns, List.countP_cons, decide_eq_true_eq]

theorem startOfHour_le (now : Time) : startOfHour now ≤ now := by
  unfold startOfHour hour second
  dsimp only [Time]
  omega

theorem sub_day_le_startOfHour (now : Time) : now - 7 * day ≤ startOfHour now - hour := by
  unfold startOfHour hour day second
  dsimp only [Time]
  omega

/-- A rollup of an hour runs in it. -/
theorem le_datetimeNow_of_hourlyRuns (h : MetricRun past s) (hruns : hourlyRuns label past ≠ 0) :
    label ≤ datetimeNow s.now := by
  induction h with
  | start => exact absurd rfl hruns
  | @step past s _ act h hs ih =>
    cases hs
    rw [hourlyRuns_cons] at hruns
    by_cases hnow : act = .rollupHourly ∧ startOfHour (datetimeNow s.now) = label
    · exact (hnow.2.symm.trans_le (startOfHour_le _)).trans datetimeNow_le_next
    · rw [if_neg hnow] at hruns
      exact (ih hruns).trans datetimeNow_le_next

/-- The hourly rows with a label are those of the one rollup in its hour. -/
theorem selectWindow_hour (h : MetricRun past s) (hlabel : label % hour = 0)
    (hkept : datetimeNow s.now - 90 * day ≤ label) :
    (hourlyRuns label past = 0 → selectWindow .hour label (label + hour) s.metrics = []) ∧
      (hourlyRuns label past = 1 → selectWindow .hour label (label + hour) s.metrics =
        rollup .fiveMinutes .hour (label - hour) label (collected past)) := by
  induction h with
  | start h =>
    obtain ⟨now, rfl⟩ := h
    exact ⟨fun _ ↦ rfl, nofun⟩
  | @step past s _ act h hs ih =>
    cases hs
    have hprev := (sub_le_sub_right datetimeNow_le_next _).trans hkept
    obtain ⟨hnone, hone⟩ := ih hprev
    rw [selectWindow_next .hour hprev, selectWindow_created_hour hlabel,
      hourlyRuns_cons]
    by_cases hnow : act = .rollupHourly ∧ startOfHour (datetimeNow s.now) = label
    · rw [if_pos hnow, if_pos hnow]
      refine ⟨nofun, fun hruns ↦ ?_⟩
      rw [hnone (Nat.succ.inj hruns), List.append_nil]
      obtain ⟨rfl, rfl⟩ := hnow
      have hwindow := selectWindow_metrics (b := startOfHour (datetimeNow s.now)) h
        (sub_day_le_startOfHour _)
      exact rollup_congr hwindow
    · rw [if_neg hnow, if_neg hnow]
      refine ⟨hnone, fun hruns ↦ ?_⟩
      rw [List.nil_append, hone hruns]
      have hle : label ≤ datetimeNow s.now :=
        le_datetimeNow_of_hourlyRuns h (hruns.trans_ne one_ne_zero)
      apply rollup_congr
      rw [collected_cons, selectWindow_append, selectWindow_collectedBy hle, List.nil_append]

/-- Before the rollup of a day there is no daily row with its label. -/
theorem selectWindow_day_of_none (h : MetricRun past s) (hlabel : label % day = 0)
    (hruns : dailyRuns label past = 0) :
    selectWindow .day label (label + day) s.metrics = [] := by
  induction h with
  | start h =>
    obtain ⟨now, rfl⟩ := h
    rfl
  | @step past s _ act h hs ih =>
    cases hs
    rw [dailyRuns_cons] at hruns
    obtain ⟨hpast, hnow⟩ := Nat.add_eq_zero_iff.mp hruns
    rw [selectWindow_next .day trivial, selectWindow_created_day hlabel, ih hpast,
      if_neg fun hc ↦ absurd hnow (by simp [hc])]
    rfl

/-- Behind the rollup of a day the daily rows with its label stay. -/
theorem selectWindow_day_later {t : MetricStore}
    (h : Run (· = t) (fun s a s' ↦ MetricStore.next s a = s') later s) (hlabel : label % day = 0)
    (hruns : dailyRuns label later = 0) :
    selectWindow .day label (label + day) s.metrics =
      selectWindow .day label (label + day) t.metrics := by
  induction h with
  | start h => rw [h]
  | @step past s _ act h hs ih =>
    cases hs
    rw [dailyRuns_cons] at hruns
    obtain ⟨hpast, hnow⟩ := Nat.add_eq_zero_iff.mp hruns
    rw [selectWindow_next .day trivial, selectWindow_created_day hlabel, ih hpast,
      if_neg fun hc ↦ absurd hnow (by simp [hc])]
    rfl

end Runs

section Channels

variable {source target : MetricPeriod} {windowStart label : Time} {metrics : List QueueJobMetric}
  {channel : String}

/-- A rollup makes one row for a channel with rows. -/
theorem group_rollup :
    group QueueJobMetric.channel (rollup source target windowStart label metrics) channel =
      let rows := selectWindow source windowStart label metrics
      if group QueueJobMetric.channel rows channel = [] then []
      else [rollupRow target label rows channel] := by
  let rows := selectWindow source windowStart label metrics
  have hkeys : group QueueJobMetric.channel
      (rollup source target windowStart label metrics) channel =
        ((rows.map QueueJobMetric.channel).dedup.filter (· = channel)).map
          (rollupRow target label rows) := List.filter_map
  have hmem : group QueueJobMetric.channel rows channel = [] ↔
      channel ∉ (rows.map QueueJobMetric.channel).dedup := by
    simp [group, List.filter_eq_nil_iff]
  rw [hkeys, List.filter_eq]
  by_cases h : channel ∈ (rows.map QueueJobMetric.channel).dedup
  · rw [List.count_eq_one_of_mem (List.nodup_dedup _) h]
    exact (if_neg fun hnil ↦ hmem.mp hnil h).symm
  · rw [List.count_eq_zero_of_not_mem h]
    exact (if_pos (hmem.mpr h)).symm

/-- A rollup keeps the totals of every channel. -/
theorem sameTotals_rollup :
    SameTotals
      (group QueueJobMetric.channel (rollup source target windowStart label metrics) channel)
      (group QueueJobMetric.channel (selectWindow source windowStart label metrics) channel) := by
  rw [group_rollup]
  dsimp only
  split
  · rename_i hnil
    rw [hnil]
    exact .of_perm (.refl [])
  · rename_i hne
    exact .singleton hne rfl

end Channels

/-- The rows of a channel with 5-minute labels in a window. -/
def fiveMinuteWindow (a b : Time) (channel : String) (metrics : List QueueJobMetric) :
    List QueueJobMetric :=
  group QueueJobMetric.channel (selectWindow .fiveMinutes a b metrics) channel

/-- The daily rows of a channel with this label. -/
def dayRows (label : Time) (channel : String) (metrics : List QueueJobMetric) :
    List QueueJobMetric :=
  metrics.filter fun m ↦
    decide (m.period = .day ∧ m.snapshotAt = label ∧ m.channel = channel)

/-- A rollup of the day in `s` is its only one, behind one rollup in each hour of the day that it
aggregates and in the first hour of its own. -/
structure Scheduled (earlier : List (MetricStore × MetricAction)) (s : MetricStore)
    (later : List (MetricStore × MetricAction)) : Prop where
  first : dailyRuns (startOfDay (datetimeNow s.now)) earlier = 0
  last : dailyRuns (startOfDay (datetimeNow s.now)) later = 0
  hourly : ∀ k : Nat, k ≤ 24 →
    hourlyRuns (startOfDay (datetimeNow s.now) - k * hour) earlier = 1

section Days

variable {earlier later : List (MetricStore × MetricAction)} {s s' : MetricStore}

/-- The rows of a window are those of its two parts. -/
theorem fiveMinuteWindow_perm {a b c : Time} (channel : String) (metrics : List QueueJobMetric)
    (hab : a ≤ b) (hbc : b ≤ c) :
    (fiveMinuteWindow a c channel metrics).Perm
      (fiveMinuteWindow a b channel metrics ++ fiveMinuteWindow b c channel metrics) := by
  have hperm : (selectWindow .fiveMinutes a c metrics).Perm
      (selectWindow .fiveMinutes b c metrics ++ selectWindow .fiveMinutes a b metrics) :=
    (selectWindow_perm hab hbc).symm
  rw [fiveMinuteWindow, fiveMinuteWindow, fiveMinuteWindow, group, group, group,
    ← List.filter_append]
  exact (hperm.trans List.perm_append_comm).filter _

theorem startOfDay_mod (now : Time) : startOfDay now % day = 0 := by
  unfold startOfDay day second
  dsimp only [Time]
  omega

theorem startOfDay_le (now : Time) : startOfDay now ≤ now := by
  unfold startOfDay day second
  dsimp only [Time]
  omega

theorem startOfDay_sub_mod (now : Time) (k : Nat) : (startOfDay now - k * hour) % hour = 0 := by
  unfold startOfDay hour day second
  dsimp only [Time]
  omega

theorem sub_day_le_startOfDay (now : Time) {k : Nat} (hk : k ≤ 24) :
    now - 90 * day ≤ startOfDay now - k * hour := by
  unfold startOfDay hour day second
  dsimp only [Time]
  omega

/-- Windows of an hour together have the totals of the whole window. -/
theorem directAggregate_hours (period : MetricPeriod) (n : Nat) (c : Time) (channel : String)
    (metrics : List QueueJobMetric) :
    directAggregate ((List.range n).flatMap fun k ↦ group QueueJobMetric.channel
        (selectWindow period (c - (k + 1 : Nat) * hour) (c - k * hour) metrics) channel) =
      directAggregate
        (group QueueJobMetric.channel (selectWindow period (c - n * hour) c metrics) channel) := by
  rw [← group_flatMap]
  apply directAggregate_eq_iff.mpr
  exact .of_perm ((flatMap_selectWindow_perm (by decide) n).filter _)

/-- The hourly rows that the rollup of a day selects have the totals of the 5-minute rows in the
24 hours to the last hour of the day. -/
theorem directAggregate_selected (h : MetricRun earlier s) (hs : Scheduled earlier s later)
    (channel : String) :
    directAggregate (group QueueJobMetric.channel
        (selectWindow .hour (startOfDay (datetimeNow s.now) - day)
          (startOfDay (datetimeNow s.now)) s.metrics) channel) =
      directAggregate (fiveMinuteWindow (startOfDay (datetimeNow s.now) - 25 * hour)
        (startOfDay (datetimeNow s.now) - hour) channel (collected earlier)) := by
  have hday : startOfDay (datetimeNow s.now) - 25 * hour =
      startOfDay (datetimeNow s.now) - hour - (24 : Nat) * hour := by
    rw [sub_sub]
    rfl
  rw [fiveMinuteWindow, hday, ← directAggregate_hours]
  refine (directAggregate_hours .hour 24 _ channel s.metrics).symm.trans ?_
  apply directAggregate_eq_iff.mpr
  apply SameTotals.flatMap
  intro k hk
  have hk : k + 1 ≤ 24 := List.mem_range.mp hk
  obtain ⟨_, hone⟩ := selectWindow_hour h (startOfDay_sub_mod (datetimeNow s.now) (k + 1))
    (sub_day_le_startOfDay _ hk)
  -- The hourly window from a label stands for the 5-minute window up to it.
  have hend : startOfDay (datetimeNow s.now) - k * hour =
      startOfDay (datetimeNow s.now) - (k + 1 : Nat) * hour + hour := by
    rw [Nat.cast_succ]
    ring
  have hlabel : startOfDay (datetimeNow s.now) - hour - k * hour =
      startOfDay (datetimeNow s.now) - (k + 1 : Nat) * hour := by
    rw [Nat.cast_succ]
    ring
  have hstart : startOfDay (datetimeNow s.now) - hour - (k + 1 : Nat) * hour =
      startOfDay (datetimeNow s.now) - (k + 1 : Nat) * hour - hour := sub_right_comm _ _ _
  rw [hend, hlabel, hstart, hone (hs.hourly _ hk)]
  exact sameTotals_rollup

theorem dayRows_eq {label : Time} (channel : String) (metrics : List QueueJobMetric)
    (h : ∀ m ∈ selectWindow .day label (label + day) metrics, m.snapshotAt = label) :
    dayRows label channel metrics = group QueueJobMetric.channel
      (selectWindow .day label (label + day) metrics) channel := by
  rw [dayRows, group, selectWindow, List.filter_filter]
  apply List.filter_congr
  intro m hm
  rw [← Bool.decide_and, decide_eq_decide]
  constructor
  · rintro ⟨hperiod, rfl, hchannel⟩
    exact ⟨hchannel, hperiod, le_rfl, lt_add_of_pos_right _ (by decide)⟩
  · rintro ⟨hchannel, hin⟩
    exact ⟨hin.1, h m (List.mem_filter.mpr ⟨hm, decide_eq_true hin⟩), hchannel⟩

/-- The daily row of a channel has the totals of the 5-minute rows in these 24 hours. -/
theorem dayRows_totals
    (h : MetricRun (later ++ (s, .rollupDaily) :: earlier) s') (hs : Scheduled earlier s later)
    (channel : String) :
    (dayRows (startOfDay (datetimeNow s.now)) channel s'.metrics).map (fun m ↦ m.totals) =
      (directAggregate (fiveMinuteWindow (startOfDay (datetimeNow s.now) - 25 * hour)
        (startOfDay (datetimeNow s.now) - hour) channel (collected earlier))).toList := by
  obtain ⟨t, hrun, hlater⟩ := h.split
  obtain ⟨hearlier, rfl⟩ := run_cons.mp hrun
  have hmod := startOfDay_mod (datetimeNow s.now)
  have hrows : selectWindow .day (startOfDay (datetimeNow s.now))
      (startOfDay (datetimeNow s.now) + day) s'.metrics =
        rollup .hour .day (startOfDay (datetimeNow s.now) - day)
          (startOfDay (datetimeNow s.now)) s.metrics := by
    rw [selectWindow_day_later hlater hmod hs.last, selectWindow_next .day trivial,
      selectWindow_created_day hmod, if_pos ⟨rfl, rfl⟩,
      selectWindow_day_of_none hearlier hmod hs.first, List.append_nil]
  have hlabels : ∀ m ∈ selectWindow .day (startOfDay (datetimeNow s.now))
      (startOfDay (datetimeNow s.now) + day) s'.metrics,
        m.snapshotAt = startOfDay (datetimeNow s.now) := by
    rw [hrows]
    exact fun m hm ↦ (rollup_labelled _ _ _ _ m hm).2
  rw [dayRows_eq channel s'.metrics hlabels, hrows, group_rollup,
    ← directAggregate_selected hearlier hs]
  dsimp only
  split
  · rename_i hnil
    rw [directAggregate, if_pos hnil]
    rfl
  · rename_i hne
    rw [directAggregate, if_neg hne, List.map_singleton]
    exact congrArg (fun v ↦ [v]) (rollupValues_totals _)

end Days

/-- The daily row of a channel is the direct aggregation of the 5-minute rows of its day exactly
if the last hour of the day weighs the same as the hour before the day. -/
theorem rollups_eq_direct_iff {earlier later : List (MetricStore × MetricAction)}
    {s s' : MetricStore} (h : MetricRun (later ++ (s, .rollupDaily) :: earlier) s')
    (hs : Scheduled earlier s later) (channel : String) :
    let dayStart := startOfDay (datetimeNow s.now)
    let rows := fun a b ↦ fiveMinuteWindow (dayStart - a) (dayStart - b) channel
      (collected (later ++ (s, .rollupDaily) :: earlier))
    (dayRows dayStart channel s'.metrics).map (fun m ↦ m.totals) =
        (directAggregate (rows day 0)).toList ↔
      SameShare (rows (25 * hour) day) (rows day hour) (rows hour 0) := by
  intro dayStart rows
  obtain ⟨t, hrun, hlater⟩ := h.split
  obtain ⟨hearlier, rfl⟩ := run_cons.mp hrun
  have hrows : ∀ a b, 0 ≤ b → rows a b =
      fiveMinuteWindow (dayStart - a) (dayStart - b) channel (collected earlier) := by
    intro a b hb
    have hover : dayStart - b ≤ datetimeNow (s.next .rollupDaily).now :=
      (sub_le_self _ hb).trans (startOfDay_le _)
    show group _ (selectWindow _ _ _ (collected (later ++ (s, .rollupDaily) :: earlier))) _ = _
    rw [collected, List.flatMap_append, selectWindow_append, List.flatMap_cons]
    exact congrArg (fun l ↦ group _ (l ++ _) _) (selectWindow_collected_later hlater hover).1
  rw [hrows (25 * hour) day (by decide), hrows day hour (by decide), hrows hour 0 le_rfl,
    hrows day 0 le_rfl, ← sameTotals_shift_iff, dayRows_totals h hs]
  have hcode := fiveMinuteWindow_perm channel (collected earlier)
    (sub_le_sub_left (by decide : day ≤ 25 * hour) dayStart)
    (sub_le_sub_left (by decide : hour ≤ day) dayStart)
  have hdirect := fiveMinuteWindow_perm channel (collected earlier)
    (sub_le_sub_left (by decide : hour ≤ day) dayStart)
    (sub_le_sub_left (by decide : 0 ≤ hour) dayStart)
  rw [directAggregate_eq_iff.mpr (.of_perm hcode), directAggregate_eq_iff.mpr (.of_perm hdirect),
    ← directAggregate_eq_iff]
  have hinjective : Function.Injective (Option.toList (α := MetricTotals)) :=
    Function.LeftInverse.injective (g := List.head?) fun _ ↦ Option.head?_toList
  exact hinjective.eq_iff

/-- One row in the middle of the hour behind `before` others, and a rollup in each hour of a day
and at its end. -/
def oneRowScript (before behind : Nat) : List MetricAction :=
  (List.replicate before [.rollupHourly, .elapse hour.toNat]).flatten ++
    [.rollupHourly, .elapse 1800000000,
      .collect [("root", { jobsCompleted := 1, averageDuration := 2 })], .elapse 1800000000] ++
    (List.replicate behind [.rollupHourly, .elapse hour.toNat]).flatten ++ [.rollupHourly]

/-- The run of a script. -/
theorem MetricRun.of_script {script : List MetricAction}
    {r : List (MetricStore × MetricAction) × MetricStore}
    (h : replay (fun s a ↦ some (MetricStore.next s a)) { now := 0 } script = some r) :
    MetricRun r.1 r.2 :=
  .of_replay (fun h ↦ Option.some.inj h) ⟨0, rfl⟩ h

/-- A row in the last hour of the day is in no daily row of it. -/
theorem rollups_ne_direct : ∃ earlier s s',
    MetricRun ([] ++ (s, .rollupDaily) :: earlier) s' ∧ Scheduled earlier s [] ∧
      (dayRows (startOfDay (datetimeNow s.now)) "root" s'.metrics).map (fun m ↦ m.totals) ≠
        (directAggregate (fiveMinuteWindow (startOfDay (datetimeNow s.now) - day)
          (startOfDay (datetimeNow s.now)) "root"
          (collected ((s, .rollupDaily) :: earlier)))).toList := by
  have hrun : (replay (fun s a ↦ some (MetricStore.next s a)) { now := 0 }
      (oneRowScript 23 0)).any (fun r ↦
        decide (dailyRuns (startOfDay (datetimeNow r.2.now)) r.1 = 0 ∧
          (∀ k : Nat, k ≤ 24 →
            hourlyRuns (startOfDay (datetimeNow r.2.now) - k * hour) r.1 = 1) ∧
          (dayRows (startOfDay (datetimeNow r.2.now)) "root"
              (r.2.next .rollupDaily).metrics).map (fun m ↦ m.totals) ≠
            (directAggregate (fiveMinuteWindow (startOfDay (datetimeNow r.2.now) - day)
              (startOfDay (datetimeNow r.2.now)) "root"
              (collected ((r.2, .rollupDaily) :: r.1)))).toList)) = true := by
    decide +kernel
  obtain ⟨⟨earlier, s⟩, hs, hrun⟩ := (Option.any_eq_true _ _).mp hrun
  obtain ⟨hfirst, hhourly, hne⟩ := of_decide_eq_true hrun
  exact ⟨earlier, s, _, (MetricRun.of_script hs).step rfl, ⟨hfirst, rfl, hhourly⟩, hne⟩

/-- A row in the middle of the day is in its daily row. -/
theorem rollups_eq_direct_midday : ∃ earlier s s',
    MetricRun ([] ++ (s, .rollupDaily) :: earlier) s' ∧ Scheduled earlier s [] ∧
      (dayRows (startOfDay (datetimeNow s.now)) "root" s'.metrics).map (fun m ↦ m.totals) =
        [⟨1, 0, 2, 0, 0⟩] := by
  have hrun : (replay (fun s a ↦ some (MetricStore.next s a)) { now := 0 }
      (oneRowScript 10 13)).any (fun r ↦
        decide (dailyRuns (startOfDay (datetimeNow r.2.now)) r.1 = 0 ∧
          (∀ k : Nat, k ≤ 24 →
            hourlyRuns (startOfDay (datetimeNow r.2.now) - k * hour) r.1 = 1) ∧
          fiveMinuteWindow (startOfDay (datetimeNow r.2.now) - 25 * hour)
            (startOfDay (datetimeNow r.2.now) - day) "root"
            (collected ((r.2, .rollupDaily) :: r.1)) = [] ∧
          fiveMinuteWindow (startOfDay (datetimeNow r.2.now) - hour)
            (startOfDay (datetimeNow r.2.now) - 0) "root"
            (collected ((r.2, .rollupDaily) :: r.1)) = [] ∧
          directAggregate (fiveMinuteWindow (startOfDay (datetimeNow r.2.now) - day)
            (startOfDay (datetimeNow r.2.now) - 0) "root"
            (collected ((r.2, .rollupDaily) :: r.1))) = some ⟨1, 0, 2, 0, 0⟩)) = true := by
    decide +kernel
  obtain ⟨⟨earlier, s⟩, hs, hrun⟩ := (Option.any_eq_true _ _).mp hrun
  obtain ⟨hfirst, hhourly, hnil, hnil', hdirect⟩ := of_decide_eq_true hrun
  have hrun : MetricRun ([] ++ (s, .rollupDaily) :: earlier) _ :=
    (MetricRun.of_script hs).step rfl
  have hscheduled : Scheduled earlier s [] := ⟨hfirst, rfl, hhourly⟩
  refine ⟨earlier, s, _, hrun, hscheduled, ?_⟩
  rw [(rollups_eq_direct_iff hrun hscheduled "root").mpr]
  · exact congrArg Option.toList hdirect
  · dsimp only [List.nil_append]
    rw [hnil, hnil']
    exact ⟨rfl, rfl, rfl, ⟨nofun, nofun⟩, ⟨nofun, nofun⟩⟩

end JobWorker
