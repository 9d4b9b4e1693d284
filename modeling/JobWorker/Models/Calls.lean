import JobWorker.Models.PayloadRoundTrip

/-!
# What a job calls

The call that `execute_job` and `run_now` read out of the payload of a row
(`job_worker/cli/worker.py:966–1062`, `job_worker/models/queue_job.py:871–893`), against the
call that was delayed. The text of the arguments is read by a parameter.
-/

namespace JobWorker

open JobEncoder JobDecoder

/-- A call of a method on records, or on a model without records. -/
structure Call where
  env : Environment
  model : String
  ids : List Int
  method : String
  args : List PayloadValue
  kwargs : List (String × PayloadValue)

/-- What keeps a job from its method. -/
inductive CallError
  | decoder (e : DecodeError)
  | keyError (key : String)
  | unknownModel (model : PayloadValue)
  | transientRegistryError (model : PayloadValue) (seconds : Int)
  | recordsNotFound (missing : List Int) (model : String)
  | typeError

/-- How `execute_job` and `run_now` catch it. -/
def CallError.exception : CallError → JobException
  | .transientRegistryError _ seconds => .transientRegistryError (some seconds) true
  | _ => .exception

/-- `payload[key]`. -/
def payloadItem (payload : List (String × PayloadValue)) (key : String) :
    Except CallError PayloadValue :=
  match payload.lookup key with
  | some value => .ok value
  | none => .error (.keyError key)

/-- `env[model_name]`; `cli/worker.py:1029–1045`, `models/queue_job.py:880,893`. -/
def registered (platform : Platform) (unknown : PayloadValue → CallError) :
    PayloadValue → Except CallError String
  | .str model => if platform.hasModel model then .ok model else .error (unknown (.str model))
  -- a key that cannot be hashed
  | .list _ | .dict _ => .error .typeError
  | model => .error (unknown model)

/-- The records of the call, all of which exist; `cli/worker.py:1048–1059`,
`models/queue_job.py:879–890`. -/
def existing (platform : Platform) (model : String) (ids : List Int) :
    Except CallError (List Int) :=
  let missing := ids.filter fun id ↦ !platform.recordExists model id
  if missing ≠ [] then .error (.recordsNotFound missing model) else .ok ids

/-- `getattr(records, method_name)` takes a string. -/
def methodName : PayloadValue → Except CallError String
  | .str method => .ok method
  | _ => .error .typeError

/-- `*args`: what can be iterated over. -/
def starArgs : PayloadValue → Except CallError (List PayloadValue)
  | .list items => .ok items
  | .str s => .ok (s.toList.map fun c ↦ .str (String.singleton c))
  | .dict fields => .ok (fields.map fun f ↦ .str f.1)
  | .recordset model ids access context =>
    .ok (ids.map fun id ↦ .recordset model [id] access context)
  | _ => .error .typeError

/-- `**kwargs`: a mapping. -/
def starKwargs : PayloadValue → Except CallError (List (String × PayloadValue))
  | .dict fields => .ok fields
  | _ => .error .typeError

/-- The call in a decoded payload. -/
def decodedCall (platform : Platform) (env : Environment) (unknown : PayloadValue → CallError) :
    PayloadValue → Except CallError Call
  | .dict payload => do
    let model ← payloadItem payload "model"
    let method ← payloadItem payload "method"
    let model ← registered platform unknown model
    -- `if record_ids:`; without any the method is that of the model
    let ids ← (recordIds (JobDecoder.get payload "ids")).mapError fun _ ↦ .typeError
    let ids ← existing platform model ids
    let method ← methodName method
    let args ← starArgs ((payload.lookup "args").getD (.list []))
    let kwargs ← starKwargs ((payload.lookup "kwargs").getD (.dict []))
    return { env, model, ids, method, args, kwargs }
  | _ => .error .typeError

/-- The call in a payload; `cli/worker.py:1019–1062`, `models/queue_job.py:871–893`. -/
def readCall (platform : Platform) (env : Environment) (unknown : PayloadValue → CallError)
    (payload : Json) : Except CallError Call :=
  (decode platform env payload).mapError .decoder >>= decodedCall platform env unknown

/-- The column `payload` of a row, with the tree of each text; `models/queue_job.py:1002–1009`. -/
def Payload.tree (loads : String → Json) (p : Payload) : Json :=
  .dict [("model", .str p.model), ("method", .str p.method),
    ("ids", .list ((p.ids.map Int.ofNat).map .int)), ("args", loads p.args),
    ("kwargs", loads p.kwargs)]

/-- The company, the users and the column that a worker reads beside the row. -/
structure RunSettings where
  company : Nat
  lang : Nat → Option String := fun _ ↦ none
  tz : Nat → Option String := fun _ ↦ none
  uuid : JobId → Option String := fun _ ↦ none

/-- `run_env`, in the company of the job; `cli/worker.py:966–979,1030`. -/
def runEnvironment (settings : RunSettings) (job : JobId) (r : Job) : Environment :=
  let uid := r.userId.getD 1
  let company := r.companyId.getD settings.company
  { access := Access.user uid
    context :=
      [("allowed_company_ids", .list [.int company]), ("company_id", .int company),
        ("job_uuid", .str ((settings.uuid job).getD (toString job)))] ++
      ((settings.lang uid).map fun lang ↦ ("lang", .str lang)).toList ++
      ((settings.tz uid).map fun tz ↦ ("tz", .str tz)).toList }

/-- What `execute_job` calls; a model that is not registered is taken for an upgrade. -/
def executedCall (platform : Platform) (settings : RunSettings) (loads : String → Json)
    (registryCheckInterval : Int) (job : JobId) (r : Job) : Except CallError Call :=
  readCall platform (runEnvironment settings job r)
    (fun model ↦ .transientRegistryError model registryCheckInterval) (r.payload.tree loads)

/-- What `run_now` calls, in the environment of its caller. -/
def runNowCall (platform : Platform) (env : Environment) (loads : String → Json) (r : Job) :
    Except CallError Call :=
  readCall platform env .unknownModel (r.payload.tree loads)

/-! ### The call that was delayed -/

/-- The arguments of `enqueue` that make a call. -/
structure DelayedCall where
  model : String
  ids : List Nat
  method : String
  args : List PayloadValue
  kwargs : List (String × PayloadValue)

/-- The payload of a row holds the delayed call; `models/queue_job.py:1002–1009`. -/
structure DelayedCall.WrittenTo (d : DelayedCall) (loads : String → Json) (p : Payload) :
    Prop where
  model : p.model = d.model
  method : p.method = d.method
  ids : p.ids = d.ids
  args : loads p.args = encode (.list d.args)
  kwargs : loads p.kwargs = encode (.dict d.kwargs)

/-- A call is the delayed one, up to the entries of contexts that are not whitelisted. -/
structure Call.Makes (c : Call) (d : DelayedCall) : Prop where
  model : c.model = d.model
  ids : c.ids = d.ids.map Int.ofNat
  method : c.method = d.method
  args : normalItems c.args = normalItems d.args
  kwargs : normalFields c.kwargs = normalFields d.kwargs

/-- The parts of the arguments. -/
def DelayedCall.Part (d : DelayedCall) (v : PayloadValue) : Prop :=
  v.Part (.list d.args) ∨ v.Part (.dict d.kwargs)

/-- A dictionary does not carry a tag of the encoding, and a recordset comes with a whitelisted
entry in its context. -/
def PayloadValue.Delayable : PayloadValue → Prop
  | .dict fields => ∀ tag ∈ reservedTags, typeTag fields ≠ some tag
  | .recordset _ _ _ context => safeContext context ≠ []
  | _ => True

section Reading

variable {platform : Platform} {env : Environment} {unknown : PayloadValue → CallError}
  {loads : String → Json} {p : Payload} {d : DelayedCall} {c : Call}

/-- The hook leaves the payload of a job alone. -/
theorem decode_tree : decode platform env (p.tree loads) =
    decode platform env (loads p.args) >>= fun args ↦
      decode platform env (loads p.kwargs) >>= fun kwargs ↦
        .ok (.dict [("model", .str p.model), ("method", .str p.method),
          ("ids", .list ((p.ids.map Int.ofNat).map .int)), ("args", args),
          ("kwargs", kwargs)]) := by
  have hlist : decode platform env (.list ((p.ids.map Int.ofNat).map .int)) =
      .ok (.list ((p.ids.map Int.ofNat).map .int)) := by
    rw [decode, decodeItems_ids]
    rfl
  rw [Payload.tree, decode]
  simp only [decodeFields, hlist]
  cases decode platform env (loads p.args) with
  | error e => rfl
  | ok args =>
    cases decode platform env (loads p.kwargs) with
    | error e => rfl
    | ok kwargs => rfl

/-- The call in a payload that was decoded. -/
theorem decodedCall_payload (model method : String) (ids : List Int) (args kwargs : PayloadValue) :
    decodedCall platform env unknown (.dict [("model", .str model), ("method", .str method),
      ("ids", .list (ids.map .int)), ("args", args), ("kwargs", kwargs)]) =
    registered platform unknown (.str model) >>= fun model ↦
      existing platform model ids >>= fun ids ↦
        starArgs args >>= fun args ↦ starKwargs kwargs >>= fun kwargs ↦
          .ok { env, model, ids, method, args, kwargs } := by
  have hread : decodedCall platform env unknown (.dict [("model", .str model),
      ("method", .str method), ("ids", .list (ids.map .int)), ("args", args),
      ("kwargs", kwargs)]) =
      registered platform unknown (.str model) >>= fun model ↦
        ((recordIds (.list (ids.map .int))).mapError fun _ ↦ .typeError) >>= fun ids ↦
          existing platform model ids >>= fun ids ↦
            starArgs args >>= fun args ↦ starKwargs kwargs >>= fun kwargs ↦
              .ok { env, model, ids, method, args, kwargs } := rfl
  rw [hread, recordIds_ids]
  rfl

/-- What is read from the payload of a job. -/
theorem readCall_tree : readCall platform env unknown (p.tree loads) =
    (decode platform env (loads p.args)).mapError .decoder >>= fun args ↦
      (decode platform env (loads p.kwargs)).mapError .decoder >>= fun kwargs ↦
        registered platform unknown (.str p.model) >>= fun model ↦
          existing platform model (p.ids.map Int.ofNat) >>= fun ids ↦
            starArgs args >>= fun args ↦ starKwargs kwargs >>= fun kwargs ↦
              .ok { env, model, ids, method := p.method, args, kwargs } := by
  rw [readCall, decode_tree]
  cases decode platform env (loads p.args) with
  | error e => rfl
  | ok args =>
    cases decode platform env (loads p.kwargs) with
    | error e => rfl
    | ok kwargs => exact decodedCall_payload _ _ _ _ _

private theorem mapError_eq_ok {ε ε' α : Type} {x : Except ε α} {f : ε → ε'} {a : α} :
    x.mapError f = .ok a ↔ x = .ok a := by
  cases x with
  | error e => simp [Except.mapError]
  | ok b => simp [Except.mapError]

/-- A registered model is found. -/
theorem registered_eq_ok {model m : String} : registered platform unknown (.str model) = .ok m ↔
    platform.hasModel model = true ∧ m = model := by
  simp only [registered]
  split_ifs with h
  · simp [h, eq_comm]
  · simp [h]

/-- The records are browsed when all of them exist. -/
theorem existing_eq_ok {model : String} {ids js : List Int} :
    existing platform model ids = .ok js ↔
      (∀ id ∈ ids, platform.recordExists model id = true) ∧ js = ids := by
  unfold existing
  dsimp only
  split_ifs with h
  · simp only [false_iff, not_and]
    intro hall
    exact absurd (List.filter_eq_nil_iff.mpr fun id hid ↦ by simp [hall id hid]) h
  · rw [not_not, List.filter_eq_nil_iff] at h
    simp only [Except.ok.injEq, eq_comm, iff_and_self]
    rintro - id hid
    simpa using h id hid

/-- A job reaches its method exactly when its model and its records are there and its arguments
are decoded into some. -/
theorem readCall_eq_ok : readCall platform env unknown (p.tree loads) = .ok c ↔
    platform.hasModel p.model = true ∧
      (∀ id ∈ p.ids, platform.recordExists p.model id = true) ∧
        ∃ args kwargs as ks, decode platform env (loads p.args) = .ok args ∧
          decode platform env (loads p.kwargs) = .ok kwargs ∧ starArgs args = .ok as ∧
            starKwargs kwargs = .ok ks ∧
              c = ⟨env, p.model, p.ids.map Int.ofNat, p.method, as, ks⟩ := by
  rw [readCall_tree]
  simp only [bind_eq_ok, mapError_eq_ok, registered_eq_ok, existing_eq_ok]
  constructor
  · rintro ⟨args, hargs, kwargs, hkwargs, _, ⟨hmodel, rfl⟩, _, ⟨hids, rfl⟩, as, has, ks, hks, hc⟩
    refine ⟨hmodel, fun id hid ↦ hids _ (List.mem_map_of_mem hid), ?_⟩
    exact ⟨args, kwargs, as, ks, hargs, hkwargs, has, hks, (Except.ok.inj hc).symm⟩
  · rintro ⟨hmodel, hids, args, kwargs, as, ks, hargs, hkwargs, has, hks, rfl⟩
    refine ⟨args, hargs, kwargs, hkwargs, _, ⟨hmodel, rfl⟩, _, ⟨?_, rfl⟩, as, has, ks, hks, rfl⟩
    intro id hid
    obtain ⟨n, hn, rfl⟩ := List.mem_map.mp hid
    exact hids n hn

/-- A model that is missing comes up behind the arguments, and before the records. -/
theorem readCall_of_not_registered {args kwargs : PayloadValue}
    (hmodel : platform.hasModel p.model = false)
    (hargs : decode platform env (loads p.args) = .ok args)
    (hkwargs : decode platform env (loads p.kwargs) = .ok kwargs) :
    readCall platform env unknown (p.tree loads) = .error (unknown (.str p.model)) := by
  have hregistered : registered platform unknown (.str p.model) =
      .error (unknown (.str p.model)) := by
    simp only [registered]
    rw [if_neg (by simp [hmodel])]
  rw [readCall_tree, hargs, hkwargs]
  simp only [Except.mapError, bind, Except.bind, hregistered]

/-- A list is decoded into a list. -/
theorem decode_list_eq_ok {items : List Json} {v : PayloadValue}
    (h : decode platform env (.list items) = .ok v) : ∃ ws, v = .list ws := by
  rw [decode] at h
  cases hws : decodeItems platform env items with
  | error e =>
    rw [hws] at h
    cases h
  | ok ws =>
    rw [hws] at h
    exact ⟨ws, (Except.ok.inj h).symm⟩

/-- **A delayed call is the call**: a job whose model and records are there calls what was
delayed exactly when both of its arguments come back from their encoding. -/
theorem readCall_makes_iff (hd : d.WrittenTo loads p) (hmodel : platform.hasModel d.model = true)
    (hids : ∀ id ∈ d.ids, platform.recordExists d.model id = true) :
    (∃ c, readCall platform env unknown (p.tree loads) = .ok c ∧ c.Makes d) ↔
      RoundTrips platform env (.list d.args) ∧ RoundTrips platform env (.dict d.kwargs) := by
  simp only [readCall_eq_ok, hd.model, hd.ids, hd.method, hd.args, hd.kwargs]
  constructor
  · rintro ⟨c, ⟨-, -, args, kwargs, as, ks, hargs, hkwargs, has, hks, rfl⟩, hmakes⟩
    constructor
    · obtain ⟨ws, rfl⟩ := decode_list_eq_ok hargs
      cases has
      exact ⟨_, hargs, congrArg PayloadValue.list hmakes.args⟩
    · cases kwargs with
      | dict fields =>
        cases hks
        exact ⟨_, hkwargs, congrArg PayloadValue.dict hmakes.kwargs⟩
      | _ => cases hks
  · rintro ⟨⟨w, hargs, hnormal⟩, ⟨w', hkwargs, hnormal'⟩⟩
    obtain ⟨ws, rfl⟩ := decode_list_eq_ok hargs
    obtain ⟨ks, rfl, hks⟩ := eq_dict_of_normal hnormal'
    refine ⟨_, ⟨hmodel, hids, _, _, ws, ks, hargs, hkwargs, rfl, rfl, rfl⟩, rfl, rfl, rfl, ?_, hks⟩
    simpa [PayloadValue.normal] using hnormal

end Reading

section Executing

variable {platform : Platform} {settings : RunSettings} {loads : String → Json}
  {interval : Int} {job : JobId} {r : Job} {d : DelayedCall} {c : Call}

/-- In the environment of the job `run_now` calls what a worker calls. -/
theorem runNowCall_eq_ok : runNowCall platform (runEnvironment settings job r) loads r = .ok c ↔
    executedCall platform settings loads interval job r = .ok c := by
  rw [runNowCall, executedCall, readCall_eq_ok, readCall_eq_ok]

/-- While the model of a job is missing, a worker retries without counting the attempt, and
`run_now` fails. -/
theorem exception_of_not_registered {args kwargs : PayloadValue}
    (hmodel : platform.hasModel r.payload.model = false)
    (hargs : decode platform (runEnvironment settings job r) (loads r.payload.args) = .ok args)
    (hkwargs : decode platform (runEnvironment settings job r) (loads r.payload.kwargs) =
      .ok kwargs) :
    (executedCall platform settings loads interval job r).mapError CallError.exception =
        .error (.transientRegistryError (some interval) true) ∧
      (runNowCall platform (runEnvironment settings job r) loads r).mapError
        CallError.exception = .error .exception := by
  rw [executedCall, runNowCall, readCall_of_not_registered hmodel hargs hkwargs,
    readCall_of_not_registered hmodel hargs hkwargs]
  exact ⟨rfl, rfl⟩

/-- A worker runs a job in a company. -/
theorem safeContext_runEnvironment : safeContext (runEnvironment settings job r).context ≠ [] := by
  intro h
  have hmem : ("company_id", PayloadValue.int (r.companyId.getD settings.company)) ∈
      safeContext (runEnvironment settings job r).context := by
    refine List.mem_filterMap.mpr ⟨"company_id", by decide, ?_⟩
    simp [runEnvironment, List.lookup_cons]
  rw [h] at hmem
  cases hmem

/-- What survives there. -/
theorem survives_runEnvironment {v : PayloadValue} :
    Survives (runEnvironment settings job r) v ↔ v.Delayable := by
  cases v with
  | recordset => simp [Survives, PayloadValue.Delayable, safeContext_runEnvironment]
  | _ => exact Iff.rfl

/-- **What a worker calls**: when the model, the records and those in the arguments are there,
the worker makes the delayed call exactly when the arguments survive their encoding. -/
theorem executedCall_makes_iff (hplatform : platform.Documented)
    (hd : d.WrittenTo loads r.payload) (hmodel : platform.hasModel d.model = true)
    (hids : ∀ id ∈ d.ids, platform.recordExists d.model id = true)
    (hrecords : ∀ v, d.Part v → RecordsExist platform v) :
    (∃ c, executedCall platform settings loads interval job r = .ok c ∧ c.Makes d) ↔
      ∀ v, d.Part v → v.Delayable := by
  rw [executedCall, readCall_makes_iff hd hmodel hids,
    roundTrips_iff hplatform fun v hv ↦ hrecords v (.inl hv),
    roundTrips_iff hplatform fun v hv ↦ hrecords v (.inr hv)]
  simp only [survives_runEnvironment]
  constructor
  · rintro ⟨h, h'⟩ v (hv | hv)
    · exact h v hv
    · exact h' v hv
  · exact fun h ↦ ⟨fun v hv ↦ h v (.inl hv), fun v hv ↦ h v (.inr hv)⟩

end Executing

end JobWorker
