import JobWorker.Base.Spacing
import JobWorker.Base.Table
import JobWorker.Monitor.QueueJobMetric

/-!
# Alert rules

`queue.job.alert.rule` with its cron, `job_worker_monitor/models/queue_job_alert_rule.py`.
A rule measures the queue, compares the value with its threshold, and stays silent for its
cooldown after it has triggered. Values and thresholds are exact.
-/

namespace JobWorker

open Relational Transition Spacing

/-- `METRIC_SELECTIONS`; `models/queue_job_alert_rule.py:8–14`. -/
inductive AlertMetric
  | failedCount
  | queueDepth
  | staleWorkers
  | p95Duration
  | averageWaitTime
  deriving DecidableEq, Repr

/-- The label of a metric. -/
def AlertMetric.label : AlertMetric → String
  | .failedCount => "Failed Job Count"
  | .queueDepth => "Queue Depth"
  | .staleWorkers => "Stale Workers"
  | .p95Duration => "P95 Duration (s)"
  | .averageWaitTime => "Average Wait Time (s)"

/-- `OPERATOR_SELECTIONS`; `models/queue_job_alert_rule.py:16–21`. -/
inductive AlertOperator
  | greater
  | greaterOrEqual
  | less
  | lessOrEqual
  deriving DecidableEq, Repr

/-- The stored value of an operator. -/
def AlertOperator.symbol : AlertOperator → String
  | .greater => ">"
  | .greaterOrEqual => ">="
  | .less => "<"
  | .lessOrEqual => "<="

/-- The fields that a user edits; `models/queue_job_alert_rule.py:29–63`. -/
structure AlertSettings where
  name : String
  active : Bool := true
  metric : AlertMetric
  channel : Option String := none
  operator : AlertOperator := .greater
  threshold : ℚ
  evaluationWindowMinutes : Int := 5
  cooldownMinutes : Int := 60
  notificationUserIds : List Nat := []
  deriving DecidableEq

/-- One row of `queue_job_alert_rule`; `models/queue_job_alert_rule.py:24–71`. -/
structure AlertRule extends AlertSettings where
  lastTriggeredAt : Option Time := none
  lastValue : ℚ := 0
  deriving DecidableEq

/-- `timedelta(minutes=1)`. -/
def minute : Time := 60 * second

/-- `datetime.min` and `datetime.max`. -/
def InDatetimeRange (t : Time) : Prop :=
  -62135596800 * second ≤ t ∧ t < 253402300800 * second

instance (t : Time) : Decidable (InDatetimeRange t) := by
  unfold InDatetimeRange; infer_instance

/-- `t + timedelta(minutes=minutes)`, none where it raises `OverflowError`. -/
def addMinutes (t : Time) (minutes : Int) : Option Time :=
  if InDatetimeRange (t + minutes * minute) then some (t + minutes * minute) else none

namespace AlertRule

variable (rule : AlertRule)

/-- The channel filter; a blank channel is none. -/
def channelFilter (r : Job) : Bool :=
  (rule.channel.filter fun channel ↦ decide (channel ≠ "")).all fun channel ↦
    r.channel == some channel

/-- The waiting times that the last query averages, in seconds. -/
def waitTimes (windowStart : Time) (jobs : List Job) : List ℚ :=
  jobs.filterMap fun r ↦
    (r.startedAt.filter fun startedAt ↦ decide (windowStart ≤ startedAt)).map fun startedAt ↦
      ((startedAt - r.createDate : Int) : ℚ) / (second : ℚ)

/-- The value of the metric over the rows of the filter. -/
def measure (now windowStart : Time) (jobs : List Job) : ℚ :=
  match rule.metric with
  | .failedCount =>
    (jobs.countP fun r ↦ r.state == .failed &&
      r.completedAt.any fun completedAt ↦ decide (windowStart ≤ completedAt) : Nat)
  | .queueDepth => (jobs.countP Job.isQueued : Nat)
  | .staleWorkers =>
    (((jobs.filter fun r ↦ r.state == .started && r.heartbeat.all fun heartbeat ↦
      decide (heartbeat < now - 60 * second)).filterMap Job.workerId).dedup.length : Nat)
  | .p95Duration =>
    percentileCont (95 / 100) (doneDurations (jobs.filter fun r ↦
      r.completedAt.any fun completedAt ↦ decide (windowStart ≤ completedAt)))
  | .averageWaitTime => average (waitTimes windowStart jobs)

/-- `_evaluate_metric`, none where the start of the window overflows;
`models/queue_job_alert_rule.py:73–145`. -/
def evaluateMetric (now : Time) (jobs : List Job) : Option ℚ :=
  (addMinutes now (-rule.evaluationWindowMinutes)).map fun windowStart ↦
    rule.measure now windowStart (jobs.filter rule.channelFilter)

/-- `_check_threshold`; `models/queue_job_alert_rule.py:147–158`. -/
def checkThreshold (value : ℚ) : Bool :=
  match rule.operator with
  | .greater => decide (value > rule.threshold)
  | .greaterOrEqual => decide (value ≥ rule.threshold)
  | .less => decide (value < rule.threshold)
  | .lessOrEqual => decide (value ≤ rule.threshold)

end AlertRule

/-- How numbers print, `str` and `.2f`, and the partner of each user. -/
structure AlertTexts where
  str : ℚ → String
  fixed : ℚ → String
  partner : Nat → Nat

/-- A message on the chatter of a rule, with its date. -/
structure AlertMessage where
  ruleId : Nat
  date : Time
  subject : String
  body : String
  partnerIds : List Nat
  deriving DecidableEq

/-- `_send_notification`; `models/queue_job_alert_rule.py:160–179`. -/
def AlertRule.sendNotification (E : AlertTexts) (ruleId : Nat) (date : Time) (rule : AlertRule)
    (value : ℚ) : AlertMessage where
  ruleId := ruleId
  date := date
  subject := "Queue Alert: " ++ rule.name
  body :=
    "<p><strong>Alert: " ++ rule.name ++ "</strong></p><p>Metric <em>" ++ rule.metric.label ++
      "</em> on channel <em>" ++
      ((rule.channel.filter fun channel ↦ decide (channel ≠ "")).getD "all channels") ++
      "</em> is " ++ rule.operator.symbol ++ " " ++ E.str rule.threshold ++
      ".</p><p>Current value: <strong>" ++ E.fixed value ++ "</strong></p>"
  partnerIds := (rule.notificationUserIds.map E.partner).eraseDups

/-- `action_test_rule`: its text and whether it warns;
`models/queue_job_alert_rule.py:216–236`. -/
def AlertRule.actionTestRule (E : AlertTexts) (now : Time) (jobs : List Job) (rule : AlertRule) :
    Option (String × Bool) :=
  (rule.evaluateMetric now jobs).map fun value ↦
    ("Test result: value=" ++ E.fixed value ++ ", threshold=" ++ E.str rule.threshold ++
      ", operator=" ++ rule.operator.symbol ++ ", triggered=" ++
      (if rule.checkThreshold value then "True" else "False"), rule.checkThreshold value)

/-- What became of one rule in a pass: the row, and the value if it triggered. -/
structure RuleEvaluation where
  rule : AlertRule
  triggered : Option ℚ

/-- The cooldown holds the rule back at `now`, or its end overflows. -/
def AlertRule.cooling (rule : AlertRule) (now : Time) : Bool :=
  rule.lastTriggeredAt.any fun lastTriggeredAt ↦
    (addMinutes lastTriggeredAt rule.cooldownMinutes).all fun cooldownEnd ↦
      decide (now < cooldownEnd)

/-- The body of the loop of `_evaluate_all_rules` for a rule that is measured at `readAt`;
`models/queue_job_alert_rule.py:186–214`. -/
def AlertRule.evaluate (now readAt : Time) (jobs : List Job) (rule : AlertRule) :
    RuleEvaluation :=
  match rule.evaluateMetric readAt jobs with
  | none => ⟨rule, none⟩
  | some value =>
    if rule.checkThreshold value && !rule.cooling now then
      ⟨{ rule with lastValue := value, lastTriggeredAt := some now }, some value⟩
    else ⟨{ rule with lastValue := value }, none⟩

/-! ### The cron and its users -/

/-- The rules, the next id, the messages that were posted, the newest first, and the clock. -/
structure AlertSystem where
  now : Time
  rules : Table Nat AlertRule := ∅
  nextId : Nat := 1
  messages : List AlertMessage := []

/-- The cron over a snapshot of the jobs, measuring each rule some time after the start and
posting its message some time behind that where the mail system does not raise, and what
users do with rules. -/
inductive AlertAction
  | elapse (d : Nat)
  | evaluateAllRules (elapsed : Nat → Nat) (jobs : List Job) (posts : Nat → Option Nat)
  | create (settings : AlertSettings)
  | write (ruleId : Nat) (settings : AlertSettings)
  | copy (ruleId : Nat)
  | unlink (ruleId : Nat)

/-- How long behind its start a pass posts the message of a rule, where it can. -/
def AlertAction.postsAfter (a : AlertAction) (ruleId : Nat) : Option Nat :=
  match a with
  | .evaluateAllRules elapsed _ posts => (posts ruleId).map (elapsed ruleId + ·)
  | _ => none

namespace AlertSystem

variable (E : AlertTexts) (s : AlertSystem)

/-- The evaluation of one rule in a pass. -/
def evaluation (elapsed : Nat → Nat) (jobs : List Job) (ruleId : Nat) (rule : AlertRule) :
    RuleEvaluation :=
  rule.evaluate (datetimeNow s.now) (datetimeNow (s.now + elapsed ruleId)) jobs

/-- The value with which a rule triggers in a pass. -/
def triggers (elapsed : Nat → Nat) (jobs : List Job) (ruleId : Nat) : Option ℚ :=
  (s.rules[ruleId]?.filter fun rule ↦ rule.active).bind fun rule ↦
    (s.evaluation elapsed jobs ruleId rule).triggered

/-- The message of one rule in a pass, which `message_post` dates when it is posted. -/
def posted (elapsed : Nat → Nat) (jobs : List Job) (posts : Nat → Option Nat) (ruleId : Nat) :
    Option AlertMessage :=
  (posts ruleId).bind fun behind ↦ s.rules[ruleId]?.bind fun rule ↦
    (s.triggers elapsed jobs ruleId).map fun value ↦
      rule.sendNotification E ruleId (datetimeNow (s.now + elapsed ruleId + behind)) value

/-- `_evaluate_all_rules`; `models/queue_job_alert_rule.py:181–214`. -/
def evaluateAllRules (elapsed : Nat → Nat) (jobs : List Job) (posts : Nat → Option Nat) :
    AlertSystem :=
  { s with
    rules := s.rules.updateWhere (fun _ rule ↦ rule.active)
      fun ruleId rule ↦ (s.evaluation elapsed jobs ruleId rule).rule
    messages := ((s.rules.select fun _ rule ↦ rule.active).filterMap
      (s.posted E elapsed jobs posts)).reverse ++ s.messages }

/-- A new rule. -/
def insert (rule : AlertRule) : AlertSystem :=
  { s with rules := s.rules.insert s.nextId rule, nextId := s.nextId + 1 }

/-- One action, where the clock can be read. -/
def next : AlertAction → Option AlertSystem
  | .elapse d => if InDatetimeRange (s.now + d) then some { s with now := s.now + d } else none
  | .evaluateAllRules elapsed jobs posts => some (s.evaluateAllRules E elapsed jobs posts)
  | .create settings => some (s.insert { settings with })
  | .write ruleId settings =>
    some { s with
      rules := s.rules.updateWhere (fun k _ ↦ k == ruleId)
        fun _ rule ↦ { rule with toAlertSettings := settings } }
  | .copy ruleId => s.rules[ruleId]?.map s.insert
  | .unlink ruleId => some { s with rules := s.rules.deleteWhere fun k _ ↦ k == ruleId }

/-- No rules yet. -/
def Starts : Prop := ∃ now, InDatetimeRange now ∧ s = { now }

end AlertSystem

/-- Runs of the alert rules. -/
abbrev AlertRun (E : AlertTexts) : List (AlertSystem × AlertAction) → AlertSystem → Prop :=
  Run AlertSystem.Starts fun s a s' ↦ s.next E a = some s'

section Evaluation

variable {rule : AlertRule} {now readAt : Time} {jobs : List Job} {value : ℚ}

/-- A rule triggers when its value is measured, breaches the threshold, and no cooldown holds
it back. -/
theorem AlertRule.triggered_evaluate :
    (rule.evaluate now readAt jobs).triggered = some value ↔
      rule.evaluateMetric readAt jobs = some value ∧ rule.checkThreshold value = true ∧
        rule.cooling now = false := by
  rw [AlertRule.evaluate]
  cases rule.evaluateMetric readAt jobs with
  | none => simp
  | some measured =>
    simp only [Option.some.injEq]
    split
    · next h =>
      rw [Bool.and_eq_true, Bool.not_eq_true'] at h
      constructor
      · intro heq
        obtain rfl : measured = value := Option.some.inj heq
        exact ⟨rfl, h⟩
      · exact fun heq ↦ congrArg some heq.1
    · next h =>
      rw [Bool.and_eq_true, Bool.not_eq_true'] at h
      constructor
      · exact fun heq ↦ by cases heq
      · rintro ⟨rfl, hc⟩
        exact absurd hc h

/-- Triggering is what stamps a rule. -/
theorem AlertRule.lastTriggeredAt_evaluate :
    (rule.evaluate now readAt jobs).rule.lastTriggeredAt =
      if (rule.evaluate now readAt jobs).triggered.isSome then some now
      else rule.lastTriggeredAt := by
  rw [AlertRule.evaluate]
  cases rule.evaluateMetric readAt jobs with
  | none => rfl
  | some measured =>
    dsimp only
    split <;> rfl

/-- A pass leaves the settings alone. -/
@[simp]
theorem AlertRule.toAlertSettings_evaluate :
    (rule.evaluate now readAt jobs).rule.toAlertSettings = rule.toAlertSettings := by
  rw [AlertRule.evaluate]
  cases rule.evaluateMetric readAt jobs with
  | none => rfl
  | some measured =>
    dsimp only
    split <;> rfl

/-- A cooldown that is over ended in time. -/
theorem AlertRule.le_of_not_cooling {last : Time} (h : rule.cooling now = false)
    (hlast : rule.lastTriggeredAt = some last) : last + rule.cooldownMinutes * minute ≤ now := by
  rw [AlertRule.cooling, hlast, Option.any_some, addMinutes] at h
  split at h
  · rw [Option.all_some, decide_eq_false_iff_not, not_lt] at h
    exact h
  · cases h

/-- The test button warns about the rules that only a cooldown could hold back. -/
theorem AlertRule.isSome_triggered_iff_actionTestRule {E : AlertTexts} :
    (rule.evaluate now readAt jobs).triggered.isSome = true ↔
      (rule.actionTestRule E readAt jobs).any Prod.snd = true ∧ rule.cooling now = false := by
  rw [Option.isSome_iff_exists, AlertRule.actionTestRule]
  simp only [AlertRule.triggered_evaluate, Option.any_map]
  cases rule.evaluateMetric readAt jobs <;> simp

end Evaluation

/-! ### What a step does to one rule -/

namespace AlertSystem

/-- The rule that a rule comes from. -/
def source (s : AlertSystem) (a : AlertAction) (ruleId : Nat) : Nat :=
  match a with
  | .copy original => if ruleId = s.nextId then original else ruleId
  | _ => ruleId

/-- The rule triggers in this step. -/
def fires (s : AlertSystem) (a : AlertAction) (ruleId : Nat) : Bool :=
  match a with
  | .evaluateAllRules elapsed jobs _ => (s.triggers elapsed jobs ruleId).isSome
  | _ => false

/-- The message that this step posts for a rule. -/
def delivers (E : AlertTexts) (s : AlertSystem) (a : AlertAction) (ruleId : Nat) :
    Option AlertMessage :=
  match a with
  | .evaluateAllRules elapsed jobs posts => s.posted E elapsed jobs posts ruleId
  | _ => none

/-- The dates of the messages of a rule, the newest first. -/
def messageDates (s : AlertSystem) (ruleId : Nat) : List Time :=
  (s.messages.filter fun m ↦ m.ruleId == ruleId).map AlertMessage.date

/-- Ids are handed out in order. -/
def Fresh (s : AlertSystem) : Prop :=
  ∀ k, s.nextId ≤ k → s.rules[k]? = none ∧ s.messageDates k = []

variable {E : AlertTexts} {s s' : AlertSystem} {a : AlertAction} {k : Nat} {rule : AlertRule}
  {elapsed : Nat → Nat} {jobs : List Job} {posts : Nat → Option Nat}

/-- Only an active rule in the table triggers. -/
theorem triggers_eq_some {value : ℚ} :
    s.triggers elapsed jobs k = some value ↔ ∃ rule, s.rules[k]? = some rule ∧
      rule.active = true ∧ (s.evaluation elapsed jobs k rule).triggered = some value := by
  simp only [triggers, Option.bind_eq_some_iff, Option.filter_eq_some_iff, and_assoc]

/-- A message is of a rule that triggers, and of the time of its posting. -/
theorem of_delivers {m : AlertMessage} (h : s.delivers E a k = some m) :
    s.fires a k = true ∧ m.ruleId = k ∧
      ∃ d, a.postsAfter k = some d ∧ m.date = datetimeNow (s.now + d) := by
  cases a with
  | evaluateAllRules elapsed jobs posts =>
    simp only [delivers, posted, Option.bind_eq_some_iff, Option.map_eq_some_iff] at h
    obtain ⟨behind, hposts, rule, _, value, htriggers, rfl⟩ := h
    refine ⟨by simp [fires, htriggers], rfl, elapsed k + behind,
      by simp [AlertAction.postsAfter, hposts], ?_⟩
    rw [Nat.cast_add, ← add_assoc]
    rfl
  | _ => cases h

/-- The rows behind a pass. -/
theorem getElem?_evaluateAllRules :
    (s.evaluateAllRules E elapsed jobs posts).rules[k]? = s.rules[k]?.map fun rule ↦
      if rule.active then (s.evaluation elapsed jobs k rule).rule else rule :=
  Table.getElem?_updateWhere ..

/-- A pass stamps the rules that trigger. -/
theorem lastTriggeredAt_of_pass {rule' : AlertRule} (h : s.rules[k]? = some rule)
    (h' : (s.evaluateAllRules E elapsed jobs posts).rules[k]? = some rule') :
    rule'.lastTriggeredAt = if (s.triggers elapsed jobs k).isSome then some (datetimeNow s.now)
      else rule.lastTriggeredAt := by
  rw [getElem?_evaluateAllRules, h, Option.map_some, Option.some.injEq] at h'
  rw [triggers, h, ← h', Option.filter_some]
  cases hactive : rule.active with
  | true => exact AlertRule.lastTriggeredAt_evaluate
  | false => rfl

/-- A new row is seen at the next id only. -/
theorem getElem?_insert : (s.insert rule).rules[k]? = if s.nextId = k then some rule
    else s.rules[k]? := Table.getElem?_insert ..

/-- Where a stamp comes from: a new rule has none, a copy has that of its original, and a rule
that triggers has the time of the pass. -/
theorem lastTriggeredAt_of_next (h : s.next E a = some s')
    (hk : s'.rules[k]? = some rule) :
    k = s.nextId ∧ s.source a k = k ∧ s.fires a k = false ∧ rule.lastTriggeredAt = none ∨
      ∃ old, s.rules[s.source a k]? = some old ∧ rule.lastTriggeredAt =
        if s.fires a k then some (datetimeNow s.now) else old.lastTriggeredAt := by
  cases a with
  | elapse d =>
    rw [next, Option.ite_none_right_eq_some] at h
    obtain ⟨_, ⟨⟩⟩ := h
    exact .inr ⟨rule, hk, rfl⟩
  | evaluateAllRules elapsed jobs posts =>
    cases h
    right
    have hold := hk
    rw [getElem?_evaluateAllRules] at hold
    obtain ⟨old, hold, _⟩ := Option.map_eq_some_iff.mp hold
    exact ⟨old, hold, lastTriggeredAt_of_pass hold hk⟩
  | create settings =>
    cases h
    rw [getElem?_insert] at hk
    split at hk
    · next heq =>
      cases hk
      exact .inl ⟨heq.symm, rfl, rfl, rfl⟩
    · exact .inr ⟨rule, hk, rfl⟩
  | write ruleId settings =>
    cases h
    right
    rw [Table.getElem?_updateWhere] at hk
    obtain ⟨old, hold, rfl⟩ := Option.map_eq_some_iff.mp hk
    refine ⟨old, hold, ?_⟩
    split <;> rfl
  | copy original =>
    obtain ⟨old, hold, rfl⟩ := Option.map_eq_some_iff.mp h
    right
    rw [getElem?_insert] at hk
    rw [source]
    split at hk
    · next heq =>
      cases hk
      rw [if_pos heq.symm]
      exact ⟨_, hold, rfl⟩
    · next hne =>
      rw [if_neg (Ne.symm hne)]
      exact ⟨rule, hk, rfl⟩
  | unlink ruleId =>
    cases h
    right
    rw [Table.getElem?_deleteWhere] at hk
    exact ⟨rule, (Option.filter_eq_some_iff.mp hk).1, rfl⟩

/-- Of the messages made from a list of rules, a rule has its own. -/
private theorem filter_filterMap_ruleId {f : Nat → Option AlertMessage} {l : List Nat}
    (hl : l.Nodup) (hkey : ∀ k m, f k = some m → m.ruleId = k) :
    ((l.filterMap f).filter fun m ↦ m.ruleId == k) = if k ∈ l then (f k).toList else [] := by
  induction l with
  | nil => rfl
  | cons j l ih =>
    obtain ⟨hj, hl⟩ := List.nodup_cons.mp hl
    have hrest := ih hl
    by_cases hjk : j = k
    · subst hjk
      rw [if_neg hj] at hrest
      rw [if_pos List.mem_cons_self]
      cases hf : f j with
      | none => rw [List.filterMap_cons_none hf, hrest, Option.toList_none]
      | some m =>
        rw [List.filterMap_cons_some hf, List.filter_cons_of_pos (by simp [hkey j m hf]), hrest,
          Option.toList_some]
    · have hmem : (k ∈ j :: l) ↔ k ∈ l := by simp [Ne.symm hjk]
      rw [if_congr hmem rfl rfl, ← hrest]
      cases hf : f j with
      | none => rw [List.filterMap_cons_none hf]
      | some m =>
        rw [List.filterMap_cons_some hf, List.filter_cons_of_neg (by simp [hkey j m hf, hjk])]

/-- A step adds the message that it posts for a rule. -/
theorem messageDates_next (h : s.next E a = some s') : s'.messageDates k =
    ((s.delivers E a k).map AlertMessage.date).toList ++ s.messageDates k := by
  cases a with
  | elapse d =>
    rw [next, Option.ite_none_right_eq_some] at h
    obtain ⟨_, ⟨⟩⟩ := h
    rfl
  | evaluateAllRules elapsed jobs posts =>
    cases h
    have hkey (j : Nat) (m : AlertMessage) (hm : s.posted E elapsed jobs posts j = some m) :
        m.ruleId = j :=
      (of_delivers (a := .evaluateAllRules elapsed jobs posts) hm).2.1
    have hnone (hk : k ∉ s.rules.select fun _ rule ↦ rule.active) :
        s.posted E elapsed jobs posts k = none := by
      cases hm : s.posted E elapsed jobs posts k with
      | none => rfl
      | some m =>
        obtain ⟨value, hv⟩ := Option.isSome_iff_exists.mp
          (of_delivers (a := .evaluateAllRules elapsed jobs posts) hm).1
        obtain ⟨rule, hrule, hactive, _⟩ := triggers_eq_some.mp hv
        exact absurd (Table.mem_select.mpr ⟨rule, hrule, hactive⟩) hk
    rw [messageDates, messageDates, evaluateAllRules, List.filter_append, List.map_append,
      List.filter_reverse, filter_filterMap_ruleId (Table.nodup_select _ _) hkey]
    congr 1
    split
    · rw [delivers]
      cases s.posted E elapsed jobs posts k <;> rfl
    · next hk => rw [delivers, hnone hk]; rfl
  | copy original =>
    obtain ⟨old, _, rfl⟩ := Option.map_eq_some_iff.mp h
    rfl
  | _ => cases h; rfl

/-- The ids of a step. -/
theorem nextId_le_next (h : s.next E a = some s') : s.nextId ≤ s'.nextId := by
  cases a with
  | elapse d =>
    rw [next, Option.ite_none_right_eq_some] at h
    obtain ⟨_, ⟨⟩⟩ := h
    exact Nat.le_refl _
  | create settings => cases h; exact Nat.le_succ _
  | copy original =>
    obtain ⟨old, _, rfl⟩ := Option.map_eq_some_iff.mp h
    exact Nat.le_succ _
  | _ => cases h; exact Nat.le_refl _

/-- The clock goes forward, and can be read. -/
theorem now_le_next (h : s.next E a = some s') (hnow : InDatetimeRange s.now) :
    s.now ≤ s'.now ∧ InDatetimeRange s'.now := by
  cases a with
  | elapse d =>
    rw [next, Option.ite_none_right_eq_some] at h
    obtain ⟨hd, ⟨⟩⟩ := h
    exact ⟨by simp, hd⟩
  | copy original =>
    obtain ⟨old, _, rfl⟩ := Option.map_eq_some_iff.mp h
    exact ⟨le_refl _, hnow⟩
  | _ => cases h; exact ⟨le_refl _, hnow⟩

/-- Without a rule there is no message. -/
theorem delivers_eq_none (hk : s.rules[k]? = none) : s.delivers E a k = none := by
  cases a with
  | evaluateAllRules elapsed jobs posts => simp [delivers, posted, hk]
  | _ => rfl

/-- Without a rule nothing triggers. -/
theorem fires_eq_false (hk : s.rules[k]? = none) : s.fires a k = false := by
  cases a with
  | evaluateAllRules elapsed jobs posts => rw [fires, triggers, hk]; rfl
  | _ => rfl

/-- No step takes an id ahead of its turn. -/
theorem fresh_next (h : s.next E a = some s') (hfresh : s.Fresh) : s'.Fresh := by
  intro k hk
  obtain ⟨hnone, hdates⟩ := hfresh k ((nextId_le_next h).trans hk)
  refine ⟨?_, by rw [messageDates_next h, delivers_eq_none hnone, hdates]; rfl⟩
  cases a with
  | elapse d =>
    rw [next, Option.ite_none_right_eq_some] at h
    obtain ⟨_, ⟨⟩⟩ := h
    exact hnone
  | evaluateAllRules elapsed jobs posts =>
    cases h
    rw [getElem?_evaluateAllRules, hnone, Option.map_none]
  | create settings =>
    cases h
    rw [getElem?_insert, if_neg (Nat.ne_of_lt hk), hnone]
  | write ruleId settings =>
    cases h
    rw [Table.getElem?_updateWhere, hnone, Option.map_none]
  | copy original =>
    obtain ⟨old, _, rfl⟩ := Option.map_eq_some_iff.mp h
    rw [getElem?_insert, if_neg (Nat.ne_of_lt hk), hnone]
  | unlink ruleId =>
    cases h
    rw [Table.getElem?_deleteWhere, hnone, Option.filter_none]

end AlertSystem

/-! ### A rule on failed jobs -/

/-- The texts of numbers do not matter here. -/
def AlertTexts.blank : AlertTexts := ⟨fun _ ↦ "", fun _ ↦ "", id⟩

/-- A failed job. -/
def Job.failedAt (completedAt : Time) : Job :=
  { payload := .ping, state := .failed, completedAt := some completedAt }

/-- A rule that warns about a failed job, its copy, and a pass that finds both cooling. -/
def AlertAction.warnings : List AlertAction :=
  [.create { name := "Failed jobs", metric := .failedCount, threshold := 0 },
    .evaluateAllRules (fun _ ↦ 0) [.failedAt 0] fun _ ↦ some 0,
    .copy 1, .elapse 1800000000,
    .evaluateAllRules (fun _ ↦ 0) [.failedAt 1800000000] fun _ ↦ some 0, .elapse 1800000000]

/-! ### Runs -/

section Runs

variable {E : AlertTexts} {past : List (AlertSystem × AlertAction)} {s s' : AlertSystem}
  {a : AlertAction} {k : Nat} {rule : AlertRule}

/-- The times at which a rule has triggered, the newest first; a copy takes over those of its
original. -/
def triggerTimes : List (AlertSystem × AlertAction) → Nat → List Time
  | [], _ => []
  | (s, a) :: past, k =>
    if s.fires a k then datetimeNow s.now :: triggerTimes past (s.source a k)
    else triggerTimes past (s.source a k)

/-- Whole seconds of a time in range are in range. -/
theorem inDatetimeRange_datetimeNow {t : Time} (h : InDatetimeRange t) :
    InDatetimeRange (datetimeNow t) := by
  unfold InDatetimeRange datetimeNow second at *
  dsimp only [Time] at *
  omega

/-- Ids are fresh in every run. -/
theorem AlertSystem.fresh (h : AlertRun E past s) : s.Fresh := by
  apply h.always
  · rintro s ⟨now, _, rfl⟩ k _
    exact ⟨Std.ExtTreeMap.getElem?_empty, rfl⟩
  · intro s a s' hfresh hs
    exact fresh_next hs hfresh

/-- The clock can be read in every run. -/
theorem AlertSystem.inDatetimeRange (h : AlertRun E past s) : InDatetimeRange s.now := by
  apply h.always
  · rintro s ⟨now, hnow, rfl⟩
    exact hnow
  · intro s a s' hnow hs
    exact (now_le_next hs hnow).2

/-- What the stamps of the rules say about the past. -/
structure RulesStamped (past : List (AlertSystem × AlertAction)) (s : AlertSystem) : Prop where
  newest : ∀ k rule, s.rules[k]? = some rule → rule.lastTriggeredAt = (triggerTimes past k).head?
  unused : ∀ k, s.nextId ≤ k → triggerTimes past k = []
  range : ∀ k, ∀ t ∈ triggerTimes past k, InDatetimeRange t ∧ t ≤ datetimeNow s.now
  sorted : ∀ k, (triggerTimes past k).Pairwise (· ≥ ·)

/-- A step keeps the stamps. -/
theorem rulesStamped_next (h : AlertRun E past s) (hs : s.next E a = some s')
    (hstamped : RulesStamped past s) : RulesStamped ((s, a) :: past) s' where
  newest k rule hk := by
    rw [triggerTimes]
    rcases AlertSystem.lastTriggeredAt_of_next hs hk with ⟨rfl, hsource, hfires, hnone⟩ |
      ⟨old, hold, heq⟩
    · rw [hfires, if_neg Bool.false_ne_true, hsource, hstamped.unused _ (Nat.le_refl _), hnone,
        List.head?_nil]
    · rw [heq]
      split
      · rfl
      · exact hstamped.newest _ old hold
  unused k hk := by
    have hle := AlertSystem.nextId_le_next hs
    have hnone := (AlertSystem.fresh h k (hle.trans hk)).1
    have hsource : s.source a k = k := by
      cases a with
      | copy original =>
        obtain ⟨old, _, rfl⟩ := Option.map_eq_some_iff.mp hs
        exact if_neg (Nat.ne_of_gt hk)
      | _ => rfl
    rw [triggerTimes, AlertSystem.fires_eq_false hnone, if_neg Bool.false_ne_true, hsource]
    exact hstamped.unused k (hle.trans hk)
  range k t ht := by
    have hrange := AlertSystem.inDatetimeRange h
    have hmono := datetimeNow_mono (AlertSystem.now_le_next hs hrange).1
    have hold (ht : t ∈ triggerTimes past (s.source a k)) :
        InDatetimeRange t ∧ t ≤ datetimeNow s'.now :=
      ⟨(hstamped.range _ t ht).1, (hstamped.range _ t ht).2.trans hmono⟩
    rw [triggerTimes] at ht
    split at ht
    · rcases List.mem_cons.mp ht with rfl | ht
      · exact ⟨inDatetimeRange_datetimeNow hrange, hmono⟩
      · exact hold ht
    · exact hold ht
  sorted k := by
    rw [triggerTimes]
    split
    · exact List.pairwise_cons.mpr
        ⟨fun t ht ↦ (hstamped.range _ t ht).2, hstamped.sorted _⟩
    · exact hstamped.sorted _

/-- The stamps of a run. -/
theorem rulesStamped (h : AlertRun E past s) : RulesStamped past s := by
  induction h with
  | start h =>
    obtain ⟨now, _, rfl⟩ := h
    exact {
      newest := fun k rule hk ↦ by
        rw [Std.ExtTreeMap.getElem?_empty] at hk
        cases hk
      unused := fun k _ ↦ rfl
      range := fun k t ht ↦ by cases ht
      sorted := fun k ↦ List.Pairwise.nil }
  | step h hs ih => exact rulesStamped_next h hs ih

/-- With a cooldown that is not negative, a rule cools while its end is ahead. -/
theorem AlertRule.cooling_iff {now : Time} {times : List Time} (hcd : 0 ≤ rule.cooldownMinutes)
    (hnow : InDatetimeRange now) (hlast : rule.lastTriggeredAt = times.head?)
    (hrange : ∀ t ∈ times, InDatetimeRange t) (hsorted : times.Pairwise (· ≥ ·)) :
    rule.cooling now = false ↔ ∀ t ∈ times, t + rule.cooldownMinutes * minute ≤ now := by
  cases times with
  | nil => simp [AlertRule.cooling, hlast]
  | cons last times =>
    constructor
    · intro hc t ht
      have hle : t ≤ last := by
        rcases List.mem_cons.mp ht with rfl | ht
        · exact le_refl t
        · exact (List.pairwise_cons.mp hsorted).1 t ht
      have hend := AlertRule.le_of_not_cooling hc hlast
      exact (add_le_add_left hle _).trans hend
    · intro h
      have hend := h last List.mem_cons_self
      have hstart := hrange last List.mem_cons_self
      -- The end of the cooldown can be computed, since it is not after `now`.
      have hin : InDatetimeRange (last + rule.cooldownMinutes * minute) := by
        have hnonneg : 0 ≤ rule.cooldownMinutes * minute := mul_nonneg hcd (by decide)
        exact ⟨hstart.1.trans (le_add_of_nonneg_right hnonneg), hend.trans_lt hnow.2⟩
      rw [AlertRule.cooling, hlast, List.head?_cons, Option.any_some, addMinutes, if_pos hin,
        Option.all_some, decide_eq_false_iff_not, not_lt]
      exact hend

/-- **When an alert goes off**: after any run of the cron, its failures and whatever users did
with the rules, a pass triggers a rule exactly if it is active, its metric can be measured and
breaches the threshold, and its cooldown is over since every time that it, or the rule that it
is a copy of, has triggered before. -/
theorem triggers_isSome_iff (h : AlertRun E past s) (hrule : s.rules[k]? = some rule)
    (hcd : 0 ≤ rule.cooldownMinutes) (elapsed : Nat → Nat) (jobs : List Job) :
    (s.triggers elapsed jobs k).isSome = true ↔
      rule.active = true ∧
        (∃ value, rule.evaluateMetric (datetimeNow (s.now + elapsed k)) jobs = some value ∧
          rule.checkThreshold value = true) ∧
        ∀ t ∈ triggerTimes past k, t + rule.cooldownMinutes * minute ≤ datetimeNow s.now := by
  have hstamped := rulesStamped h
  have hcooling := AlertRule.cooling_iff hcd
    (inDatetimeRange_datetimeNow (AlertSystem.inDatetimeRange h)) (hstamped.newest k rule hrule)
    (fun t ht ↦ (hstamped.range k t ht).1) (hstamped.sorted k)
  rw [← hcooling]
  constructor
  · intro hsome
    obtain ⟨value, hvalue⟩ := Option.isSome_iff_exists.mp hsome
    obtain ⟨rule', hrule', hactive, htriggered⟩ := AlertSystem.triggers_eq_some.mp hvalue
    rw [hrule, Option.some.injEq] at hrule'
    subst hrule'
    obtain ⟨hmeasured, hbreach, hover⟩ := AlertRule.triggered_evaluate.mp htriggered
    exact ⟨hactive, ⟨value, hmeasured, hbreach⟩, hover⟩
  · intro hall
    obtain ⟨hactive, ⟨value, hmeasured, hbreach⟩, hover⟩ := hall
    have htriggered : s.triggers elapsed jobs k = some value :=
      AlertSystem.triggers_eq_some.mpr
        ⟨rule, hrule, hactive, AlertRule.triggered_evaluate.mpr ⟨hmeasured, hbreach, hover⟩⟩
    rw [htriggered, Option.isSome_some]

/-- The copy triggers an hour after its original has. -/
theorem triggers_isSome_iff_warnings : ∃ past s, AlertRun .blank past s ∧
    (s.triggers (fun _ ↦ 0) [.failedAt 3600000000] 2).isSome = true := by
  have hrun : (replay (AlertSystem.next .blank) { now := 0 } AlertAction.warnings).bind (fun r ↦
      r.2.rules[2]?.map fun rule ↦ decide (0 ≤ rule.cooldownMinutes ∧ rule.active = true ∧
        rule.evaluateMetric (datetimeNow (r.2.now + (0 : Nat))) [.failedAt 3600000000] = some 1 ∧
        rule.checkThreshold 1 = true ∧ ∀ t ∈ triggerTimes r.1 2,
          t + rule.cooldownMinutes * minute ≤ datetimeNow r.2.now)) = some true := by
    decide +kernel
  obtain ⟨⟨past, s⟩, hreplay, hrule⟩ := Option.bind_eq_some_iff.mp hrun
  obtain ⟨rule, hrule, heq⟩ := Option.map_eq_some_iff.mp hrule
  obtain ⟨hcd, hactive, hvalue, hbreach, htimes⟩ := of_decide_eq_true heq
  have h : AlertRun .blank past s := Run.of_replay id ⟨0, by decide, rfl⟩ hreplay
  exact ⟨past, s, h, (triggers_isSome_iff h hrule hcd _ _).mpr
    ⟨hactive, ⟨1, hvalue, hbreach⟩, htimes⟩⟩

/-- Whenever the cron runs, a rule has at least this cooldown. -/
def AlertSystem.CoolsFor (c : Int) (k : Nat) (s : AlertSystem) : AlertAction → Prop
  | .evaluateAllRules _ _ _ => ∀ rule, s.rules[k]? = some rule → c ≤ rule.cooldownMinutes
  | _ => True

instance (c : Int) (k : Nat) (s : AlertSystem) : ∀ a, Decidable (s.CoolsFor c k a)
  | .evaluateAllRules _ _ _ =>
    decidable_of_iff (s.rules[k]?.all fun rule ↦ decide (c ≤ rule.cooldownMinutes))
      (by simp only [Option.all_eq_true, decide_eq_true_eq, AlertSystem.CoolsFor])
  | .elapse _ | .create _ | .write _ _ | .copy _ | .unlink _ => isTrue trivial

/-- The message of a rule is posted within `d` seconds of the start of the pass. -/
def AlertAction.PostsWithin (d k : Nat) (a : AlertAction) : Prop :=
  ∀ behind, a.postsAfter k = some behind → (behind : Time) ≤ d * second

instance (d k : Nat) (a : AlertAction) : Decidable (a.PostsWithin d k) :=
  decidable_of_iff
    ((a.postsAfter k).all fun behind : Nat ↦ decide ((behind : Time) ≤ d * second))
    (by simp only [Option.all_eq_true, decide_eq_true_eq, AlertAction.PostsWithin])

/-- The passes that posted the messages of a rule keep its cooldown between them, its messages
are at most `d` seconds behind them, and its stamp is not earlier. -/
structure MessagesSpaced (c : Int) (d k : Nat) (starts : List Time) (s : AlertSystem) : Prop where
  spaced : Spaced (c * minute) starts
  dated : DatedWithin (d * second) (s.messageDates k) starts
  stamped : ∀ rule, s.rules[k]? = some rule → ∀ t ∈ starts,
    ∃ last, rule.lastTriggeredAt = some last ∧ t ≤ last

variable {c : Int} {d : Nat} {starts : List Time}

/-- Whole seconds later by a number of seconds at most. -/
theorem datetimeNow_add_le {t : Time} {behind : Nat} (h : (behind : Time) ≤ d * second) :
    datetimeNow t ≤ datetimeNow (t + behind) ∧
      datetimeNow (t + behind) ≤ datetimeNow t + d * second := by
  unfold datetimeNow second at *
  dsimp only [Time] at *
  omega

/-- A rule that triggers has posted nothing in the passes of a cooldown. -/
theorem MessagesSpaced.add_le_of_fires (hp : MessagesSpaced c d k starts s)
    (hcool : s.CoolsFor c k a) (hfires : s.fires a k = true) :
    ∀ t ∈ starts, t + c * minute ≤ datetimeNow s.now := by
  intro t ht
  cases a with
  | evaluateAllRules elapsed jobs posts =>
    obtain ⟨value, hvalue⟩ := Option.isSome_iff_exists.mp hfires
    obtain ⟨rule, hrule, _, htriggered⟩ := AlertSystem.triggers_eq_some.mp hvalue
    obtain ⟨last, hlast, hle⟩ := hp.stamped rule hrule t ht
    have hover := AlertRule.le_of_not_cooling (AlertRule.triggered_evaluate.mp htriggered).2.2 hlast
    have hc : c * minute ≤ rule.cooldownMinutes * minute :=
      mul_le_mul_of_nonneg_right (hcool rule hrule) (by decide)
    exact (add_le_add hle hc).trans hover
  | _ => cases hfires

/-- A rule that does not exist yet has posted nothing. -/
theorem messagesSpaced_of_unused (hs : s.next E a = some s') (hk : s.nextId ≤ k)
    (hfresh : s.Fresh) : MessagesSpaced c d k [] s' where
  spaced := spaced_nil
  dated := by
    obtain ⟨hnone, hempty⟩ := hfresh k hk
    rw [AlertSystem.messageDates_next hs, AlertSystem.delivers_eq_none hnone, hempty]
    exact .nil
  stamped := fun _ _ t ht ↦ by cases ht

/-- A step keeps the pace. -/
theorem messagesSpaced_next (hc : 0 ≤ c) (hs : s.next E a = some s') (hcool : s.CoolsFor c k a)
    (hposts : a.PostsWithin d k) (hfresh : s.Fresh) (hp : MessagesSpaced c d k starts s) :
    ∃ starts', MessagesSpaced c d k starts' s' := by
  by_cases hk : s.nextId ≤ k
  · exact ⟨[], messagesSpaced_of_unused hs hk hfresh⟩
  have hdates := AlertSystem.messageDates_next (k := k) hs
  have hsource : s.source a k = k := by
    cases a with
    | copy original => exact if_neg (by omega)
    | _ => rfl
  have hstamp (rule : AlertRule) (hrule : s'.rules[k]? = some rule) :
      ∃ old, s.rules[k]? = some old ∧ rule.lastTriggeredAt =
        if s.fires a k then some (datetimeNow s.now) else old.lastTriggeredAt := by
    rcases AlertSystem.lastTriggeredAt_of_next hs hrule with ⟨rfl, _⟩ | hold
    · exact absurd (Nat.le_refl _) hk
    · rwa [hsource] at hold
  have hstamped (rule : AlertRule) (hrule : s'.rules[k]? = some rule) :
      ∀ t ∈ starts, ∃ last, rule.lastTriggeredAt = some last ∧ t ≤ last := by
    intro t ht
    obtain ⟨old, hold, hlast⟩ := hstamp rule hrule
    cases hfires : s.fires a k with
    | true =>
      rw [hfires, if_pos rfl] at hlast
      have hnonneg : 0 ≤ c * minute := mul_nonneg hc (by decide)
      exact ⟨datetimeNow s.now, hlast,
        (le_add_of_nonneg_right hnonneg).trans (hp.add_le_of_fires hcool hfires t ht)⟩
    | false =>
      rw [hfires, if_neg Bool.false_ne_true] at hlast
      rw [hlast]
      exact hp.stamped old hold t ht
  cases hm : s.delivers E a k with
  | none =>
    rw [hm] at hdates
    exact ⟨starts, hp.spaced, hdates ▸ hp.dated, hstamped⟩
  | some m =>
    obtain ⟨hfires, _, behind, hafter, hdate⟩ := AlertSystem.of_delivers hm
    rw [hm, Option.map_some, Option.toList_some, List.singleton_append] at hdates
    refine ⟨datetimeNow s.now :: starts, ?_, ?_, fun rule hrule t ht ↦ ?_⟩
    · exact spaced_cons.mpr ⟨hp.add_le_of_fires hcool hfires, hp.spaced⟩
    · rw [hdates, hdate]
      exact .cons (datetimeNow_add_le (hposts behind hafter)) hp.dated
    · rcases List.mem_cons.mp ht with rfl | ht
      · obtain ⟨old, _, hlast⟩ := hstamp rule hrule
        rw [hfires, if_pos rfl] at hlast
        exact ⟨_, hlast, le_rfl⟩
      · exact hstamped rule hrule t ht

/-- The passes that posted the messages of a rule are spaced in every run. -/
theorem exists_messagesSpaced (hc : 0 ≤ c) (h : AlertRun E past s)
    (hcool : Guarded (AlertSystem.CoolsFor c k) past)
    (hposts : ∀ p ∈ past, p.2.PostsWithin d k) : ∃ starts, MessagesSpaced c d k starts s := by
  induction h with
  | start h =>
    obtain ⟨now, _, rfl⟩ := h
    exact ⟨[], spaced_nil, .nil, fun rule _ t ht ↦ by cases ht⟩
  | step h hs ih =>
    obtain ⟨hstep, hcool⟩ := guarded_cons.mp hcool
    obtain ⟨starts, hspaced⟩ := ih hcool fun p hp ↦ hposts p (List.mem_cons_of_mem _ hp)
    exact messagesSpaced_next hc hs hstep (hposts _ List.mem_cons_self) (AlertSystem.fresh h)
      hspaced

/-- **Alerts do not flood**: a rule whose cooldown is never below `c` minutes when the cron runs,
and whose messages are posted within `d` seconds of the start of their pass, posts at most `n`
messages in any `n * c` minutes less `d` seconds, however often the cron runs, the mail system
fails, or the rule is edited, copied or switched off and on. -/
theorem messages_in_window_le (hc : 0 ≤ c) (h : AlertRun E past s)
    (hcool : Guarded (AlertSystem.CoolsFor c k) past)
    (hposts : ∀ p ∈ past, p.2.PostsWithin d k) (t : Time) (n : Nat) :
    s.messages.countP (fun m ↦ m.ruleId == k &&
      decide (t ≤ m.date ∧ m.date + d * second < t + n • (c * minute))) ≤ n := by
  obtain ⟨starts, hspaced⟩ := exists_messagesSpaced hc h hcool hposts
  have hcount := hspaced.spaced.countP_dates_le hspaced.dated (mul_nonneg hc (by decide)) t n
  rw [AlertSystem.messageDates, List.countP_map, List.countP_filter] at hcount
  calc _ ≤ s.messages.countP _ := by
        apply List.countP_mono_left
        intro m _ hm
        rw [Bool.and_eq_true] at hm
        rw [Bool.and_eq_true]
        exact ⟨hm.2, hm.1⟩
    _ ≤ n := hcount

/-- A rule that warns about a failed job, in passes that post it 40 and 10 seconds behind their
start. -/
def AlertAction.lateWarnings : List AlertAction :=
  [.create { name := "Failed jobs", metric := .failedCount, threshold := 0 },
    .evaluateAllRules (fun _ ↦ 30000000) [.failedAt 0] fun _ ↦ some 10000000,
    .elapse 3600000000,
    .evaluateAllRules (fun _ ↦ 0) [.failedAt 3600000000] fun _ ↦ some 10000000]

/-- Two messages in less than an hour, but not in an hour less the 40 seconds. -/
theorem messages_in_window_le_lateWarnings : ∃ past s, AlertRun .blank past s ∧
    s.messages.map AlertMessage.date = [3610 * second, 40 * second] ∧
    s.messages.countP (fun m ↦ m.ruleId == 1 &&
      decide (40 * second ≤ m.date ∧
        m.date + (40 : Nat) * second < 40 * second + 1 • (60 * minute))) ≤ 1 := by
  have hrun : (replay (AlertSystem.next .blank) { now := 0 } AlertAction.lateWarnings).map (fun r ↦
      (r.1.all fun p ↦ decide (p.1.CoolsFor 60 1 p.2 ∧ p.2.PostsWithin 40 1),
        r.2.messages.map AlertMessage.date)) =
      some (true, [3610 * second, 40 * second]) := by
    decide +kernel
  obtain ⟨⟨past, s⟩, hreplay, heq⟩ := Option.map_eq_some_iff.mp hrun
  simp only [Prod.mk.injEq, List.all_eq_true, decide_eq_true_eq] at heq
  have h : AlertRun .blank past s := Run.of_replay id ⟨0, by decide, rfl⟩ hreplay
  exact ⟨past, s, h, heq.2, messages_in_window_le (by decide) h (fun p hp ↦ (heq.1 p hp).1)
    (fun p hp ↦ (heq.1 p hp).2) (40 * second) 1⟩

end Runs

end JobWorker
