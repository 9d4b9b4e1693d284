import JobWorker.History
import JobWorker.Models.Calls
import JobWorker.RowEffects

/-!
# A delayed call is the call

However long a job waits, is retried, reclaimed or requeued, a worker that executes it calls what
the `enqueue` delayed that created it, as the user and in the company of that `enqueue`
(`job_worker/models/queue_job.py:943–1054`, `job_worker/cli/worker.py:966–1062`).
-/

namespace JobWorker

open Transition

/-- The arguments of `enqueue` are those of a call. -/
def EnqueueArgs.Delays (a : EnqueueArgs) (loads : String → Json) (d : DelayedCall) : Prop :=
  d.WrittenTo loads ⟨a.modelName, a.methodName, a.recordIds, a.args, a.kwargs⟩

/-- A method with two underscores on both sides. -/
def IsDunder (method : String) : Prop := method.startsWith "__" ∧ method.endsWith "__"

/-- A call is made for a caller of `enqueue`. -/
structure Call.OnBehalfOf (c : Call) (settings : RunSettings) (env : OrmEnv) (a : EnqueueArgs) :
    Prop where
  model : c.model = a.modelName
  ids : c.ids = a.recordIds.map Int.ofNat
  method : c.method = a.methodName
  notDunder : ¬ IsDunder c.method
  access : c.env.access = Access.user (env.userId.getD 1)
  company : c.env.context.lookup "company_id" =
    some (.int (env.companyId.getD settings.company))

section Enqueue

variable {env : OrmEnv} {now : Time} {s s' : Store} {a : EnqueueArgs} {j : JobId}

/-- `enqueue` refuses dunder methods. -/
theorem not_isDunder_of_enqueue (h : enqueue env now s a = .ok (s', j)) :
    ¬ IsDunder a.methodName := by
  intro hd
  unfold enqueue at h
  split at h
  · cases h
  split at h
  · cases h
  · next hn => exact hn hd

end Enqueue

namespace World

variable {w u : World} {past : List (World × Event)} {j : JobId} {r : Job}

/-- The `enqueue` that created a row. -/
structure CreatedBy (past : List (World × Event)) (j : JobId) (r : Job) (u : World)
    (env : OrmEnv) (a : EnqueueArgs) : Prop where
  mem : (u, Event.enqueue env a) ∈ past
  absent : u.store.get? j = none
  returned : ∃ s', JobWorker.enqueue env u.now u.store a = .ok (s', j)
  terms : ∃ eta, r.terms = (enqueueVals env u.now a eta).terms

/-- Every row was created by an `enqueue`, and has its lasting columns. -/
theorem exists_createdBy
    (h : Transition.Run (fun w ↦ ∃ now, w = World.init now) World.Step past w)
    (hr : w.store.get? j = some r) : ∃ u env a, CreatedBy past j r u env a := by
  induction h generalizing r with
  | start hinit =>
    obtain ⟨now, rfl⟩ := hinit
    cases hr
  | @step past u e w hrun hs ih =>
    obtain ⟨s', hc, rfl⟩ := hs
    rcases hc.row_before hr with ⟨q, hq, heffect⟩ | ⟨habsent, env, a, eta, rfl, rfl⟩
    · obtain ⟨v, env, a, hcreated⟩ := ih hq
      obtain ⟨eta, hterms⟩ := hcreated.terms
      exact ⟨v, env, a, List.mem_cons_of_mem _ hcreated.mem, hcreated.absent,
        hcreated.returned, eta, heffect.terms.trans hterms⟩
    · refine ⟨u, env, a, List.mem_cons_self, habsent, ?_, eta, rfl⟩
      cases hc with
      | enqueue h =>
        rcases enqueue_cases h with ⟨rfl, _⟩ | ⟨_, _, _, hcreate⟩
        · cases habsent.symm.trans hr
        · rcases Store.get?_create_cases hcreate hr with ⟨rfl, _⟩ | hr
          · exact ⟨_, h⟩
          · cases habsent.symm.trans hr

section Created

variable {env : OrmEnv} {a : EnqueueArgs}

/-- The payload of a row is that of its `enqueue`. -/
theorem CreatedBy.payload (h : CreatedBy past j r u env a) :
    r.payload = ⟨a.modelName, a.methodName, a.recordIds, a.args, a.kwargs⟩ := by
  obtain ⟨eta, hterms⟩ := h.terms
  exact congrArg Terms.payload hterms

/-- What a worker calls for a row, it calls for the caller of its `enqueue`. -/
theorem CreatedBy.onBehalfOf (h : CreatedBy past j r u env a) {platform : Platform}
    {settings : RunSettings} {loads : String → Json} {interval : Int} {c : Call}
    (hc : executedCall platform settings loads interval j r = .ok c) :
    c.OnBehalfOf settings env a := by
  obtain ⟨eta, hterms⟩ := h.terms
  obtain ⟨s', hreturned⟩ := h.returned
  have huser : r.userId = env.userId := congrArg Terms.userId hterms
  have hcompany : r.companyId = env.companyId := congrArg Terms.companyId hterms
  rw [executedCall] at hc
  obtain ⟨_, _, args, kwargs, as, ks, _, _, _, _, rfl⟩ := readCall_eq_ok.mp hc
  refine ⟨?_, ?_, ?_, ?_, ?_, ?_⟩
  · rw [h.payload]
  · rw [h.payload]
  · rw [h.payload]
  · rw [h.payload]
    exact not_isDunder_of_enqueue hreturned
  · simp only [runEnvironment, huser]
  · simp [runEnvironment, List.lookup_cons, hcompany]

end Created

/-- **A delayed call is the call**: in every run, whatever a worker calls for a job is the method
that the `enqueue` named which created the job, never a dunder method, for the user and the
company of that `enqueue`; and when the model and the records of a call are there, the worker
makes the call as it was delayed exactly when no dictionary of its arguments carries a tag of the
encoding and every recordset in them has a whitelisted context. -/
theorem exists_delayed
    (h : Transition.Run (fun w ↦ ∃ now, w = World.init now) World.Step past w)
    (hr : w.store.get? j = some r) :
    ∃ u env a, CreatedBy past j r u env a ∧
      ∀ platform settings loads interval,
        (∀ c, executedCall platform settings loads interval j r = .ok c →
          c.OnBehalfOf settings env a) ∧
        ∀ d, a.Delays loads d → platform.Documented → platform.hasModel d.model = true →
          (∀ id ∈ d.ids, platform.recordExists d.model id = true) →
            (∀ v, d.Part v → RecordsExist platform v) →
              ((∃ c, executedCall platform settings loads interval j r = .ok c ∧ c.Makes d) ↔
                ∀ v, d.Part v → v.Delayable) := by
  obtain ⟨u, env, a, hcreated⟩ := exists_createdBy h hr
  refine ⟨u, env, a, hcreated, ?_⟩
  intro platform settings loads interval
  refine ⟨fun c hc ↦ hcreated.onBehalfOf hc, ?_⟩
  intro d hd hplatform hmodel hids hrecords
  have hwritten : d.WrittenTo loads r.payload := by
    rw [hcreated.payload]
    exact hd
  exact executedCall_makes_iff hplatform hwritten hmodel hids hrecords

/-- A report on a partner that a user delays in a company. -/
def reportArgs : EnqueueArgs where
  modelName := "res.partner"
  methodName := "report"
  recordIds := [1]
  args := "[\"monthly\"]"

/-- The call. -/
def report : DelayedCall where
  model := "res.partner"
  ids := [1]
  method := "report"
  args := [.str "monthly"]
  kwargs := []

/-- The texts of its arguments, read. -/
def reportLoads (text : String) : Json :=
  if text = "[\"monthly\"]" then .list [.str "monthly"] else .dict []

/-- What there is in the arguments. -/
theorem part_report {v : PayloadValue} (h : report.Part v) :
    RecordsExist onePartner v ∧ v.Delayable := by
  rcases h with h | h
  · rcases part_list.mp h with rfl | ⟨w, hw, h⟩
    · exact ⟨trivial, trivial⟩
    · rw [report, List.mem_singleton] at hw
      rw [hw] at h
      cases h
      exact ⟨trivial, trivial⟩
  · rcases part_dict.mp h with rfl | ⟨f, hf, h⟩
    · refine ⟨trivial, fun tag _ ht ↦ ?_⟩
      cases ht
    · cases hf

/-- The worker makes the report. -/
theorem exists_delayed_report : ∃ past w r c,
    Transition.Run (fun w ↦ ∃ now, w = World.init now) World.Step past w ∧
      w.store.get? 1 = some r ∧
        executedCall onePartner { company := 1 } reportLoads 30 1 r = .ok c ∧ c.Makes report ∧
          c.OnBehalfOf { company := 1 } { userId := some 7, companyId := some 3 } reportArgs := by
  have hsome : (((World.init 0).next (.enqueue { userId := some 7, companyId := some 3 }
      reportArgs)).bind fun w ↦ w.store.get? 1).isSome = true := by decide +kernel
  obtain ⟨r, hr⟩ := Option.isSome_iff_exists.mp hsome
  obtain ⟨w, hw, hr⟩ := Option.bind_eq_some_iff.mp hr
  have hrun : Transition.Run (fun w ↦ ∃ now, w = World.init now) World.Step
      [(World.init 0, .enqueue { userId := some 7, companyId := some 3 } reportArgs)] w :=
    .step (.start ⟨0, rfl⟩) (step_of_next hw)
  obtain ⟨u, env, a, hcreated, hcalls⟩ := exists_delayed hrun hr
  have hmem := List.mem_singleton.mp hcreated.mem
  simp only [Prod.mk.injEq, Event.enqueue.injEq] at hmem
  obtain ⟨rfl, rfl, rfl⟩ := hmem
  obtain ⟨hbehalf, hmakes⟩ := hcalls onePartner { company := 1 } reportLoads 30
  obtain ⟨c, hc, hmakes⟩ := (hmakes report ⟨rfl, rfl, rfl, rfl, rfl⟩ onePartner_documented rfl
    (by decide) fun v hv ↦ (part_report hv).1).mpr fun v hv ↦ (part_report hv).2
  exact ⟨_, w, r, c, hrun, hr, hc, hmakes, hbehalf c hc⟩

end World
end JobWorker
