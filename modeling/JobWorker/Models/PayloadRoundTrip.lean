import JobWorker.Models.JobSerialization

/-!
# Round trips of payloads

What `JobDecoder` makes of what `JobEncoder` wrote. The decoder looks for its tags in every
dictionary, also in those of the caller, and an environment without whitelisted context is
written as an empty dictionary, which the decoder takes for no context at all.
-/

namespace JobWorker

open IsoFormat JobEncoder JobDecoder

/-! ### Payload trees -/

/-- Induction over a payload tree. -/
@[elab_as_elim]
theorem PayloadValue.tree_induction {P : PayloadValue → Prop} (null : P .null)
    (bool : ∀ b, P (.bool b)) (int : ∀ i, P (.int i)) (str : ∀ s, P (.str s))
    (list : ∀ items, (∀ w ∈ items, P w) → P (.list items))
    (dict : ∀ fields : List (String × PayloadValue), (∀ f ∈ fields, P f.2) → P (.dict fields))
    (date : ∀ d, P (.date d)) (datetime : ∀ d, P (.datetime d))
    (recordset : ∀ model ids access (context : List (String × PayloadValue)),
      (∀ f ∈ context, P f.2) → P (.recordset model ids access context))
    (v : PayloadValue) : P v := by
  have hcons {α : Type} {Q : α → Prop} (head : α) (tail : List α) (hhead : Q head)
      (htail : ∀ a ∈ tail, Q a) : ∀ a ∈ head :: tail, Q a :=
    List.forall_mem_cons.mpr ⟨hhead, htail⟩
  exact PayloadValue.rec (motive_2 := fun items ↦ ∀ w ∈ items, P w)
    (motive_3 := fun fields ↦ ∀ f ∈ fields, P f.2) (motive_4 := fun f ↦ P f.2)
    null bool int str list dict date datetime recordset nofun hcons nofun hcons
    (fun _ _ h ↦ h) v

/-- The parts of a payload that the encoder visits. -/
inductive PayloadValue.Part (u : PayloadValue) : PayloadValue → Prop
  | self : Part u u
  | item {items : List PayloadValue} {w : PayloadValue} :
      w ∈ items → Part u w → Part u (.list items)
  | field {fields : List (String × PayloadValue)} {f : String × PayloadValue} :
      f ∈ fields → Part u f.2 → Part u (.dict fields)
  | context {model : String} {ids : List Int} {access : Access}
      {context : List (String × PayloadValue)} {f : String × PayloadValue} :
      f ∈ safeContext context → Part u f.2 → Part u (.recordset model ids access context)

mutual

/-- A payload whose recordsets keep the whitelisted part of their context only. -/
def PayloadValue.normal : PayloadValue → PayloadValue
  | .null => .null
  | .bool b => .bool b
  | .int i => .int i
  | .str s => .str s
  | .list items => .list (normalItems items)
  | .dict fields => .dict (normalFields fields)
  | .date d => .date d
  | .datetime d => .datetime d
  | .recordset model ids access context =>
    .recordset model ids access (safeContext (normalFields context))

/-- The items of a list. -/
def normalItems : List PayloadValue → List PayloadValue
  | [] => []
  | item :: items => item.normal :: normalItems items

/-- The values of a dictionary. -/
def normalFields : List (String × PayloadValue) → List (String × PayloadValue)
  | [] => []
  | (key, value) :: fields => (key, value.normal) :: normalFields fields

end

/-- Decoding what was encoded yields the payload again, up to the entries of a context that
are not whitelisted. -/
def RoundTrips (platform : Platform) (env : Environment) (v : PayloadValue) : Prop :=
  ∃ w, decode platform env (encode v) = .ok w ∧ w.normal = v.normal

/-- The records of a recordset exist. -/
def RecordsExist (platform : Platform) : PayloadValue → Prop
  | .recordset model ids _ _ =>
    platform.hasModel model = true ∧ ∀ id ∈ ids, platform.recordExists model id = true
  | _ => True

/-- The tags that the decoder looks for. -/
def reservedTags : List String := ["odoo_recordset", "datetime_isoformat", "date_isoformat"]

/-- A dictionary does not carry a tag, and a recordset without a whitelisted context is
decoded in an environment without one. -/
def Survives (env : Environment) : PayloadValue → Prop
  | .dict fields => ∀ tag ∈ reservedTags, typeTag fields ≠ some tag
  | .recordset _ _ _ context => safeContext context = [] → safeContext env.context = []
  | _ => True

section Contexts

variable {α β : Type} {context : List (String × α)} {key : String}

/-- A whitelisted entry is an entry. -/
theorem mem_of_mem_safeContext {f : String × α} (h : f ∈ safeContext context) :
    f ∈ context := by
  obtain ⟨key, _, h⟩ := List.mem_filterMap.mp h
  obtain ⟨value, hvalue, rfl⟩ := Option.map_eq_some_iff.mp h
  obtain ⟨_, _, rfl, _⟩ := List.lookup_eq_some_iff.mp hvalue
  simp

/-- Its key is whitelisted. -/
theorem key_of_mem_safeContext {f : String × α} (h : f ∈ safeContext context) :
    f.1 ∈ safeContextKeys := by
  obtain ⟨key, hkey, h⟩ := List.mem_filterMap.mp h
  obtain ⟨_, _, rfl⟩ := Option.map_eq_some_iff.mp h
  exact hkey

/-- Working on the values of a dictionary. -/
theorem lookup_map_values (f : α → β) (key : String) :
    (context.map fun p ↦ (p.1, f p.2)).lookup key = (context.lookup key).map f := by
  induction context with
  | nil => rfl
  | cons p context ih =>
    obtain ⟨k, a⟩ := p
    simp only [List.map_cons, List.lookup_cons, ih]
    split <;> rfl

/-- Whitelisting first or last is the same. -/
theorem safeContext_map (f : α → β) :
    safeContext (context.map fun p ↦ (p.1, f p.2)) =
      (safeContext context).map fun p ↦ (p.1, f p.2) := by
  simp only [safeContext, lookup_map_values, List.map_filterMap]
  congr 1
  ext key : 1
  cases context.lookup key <;> rfl

/-- The keys of a whitelisted context, in the order of the whitelist. -/
theorem keys_sublist (keys : List String) :
    ((keys.filterMap fun k ↦ (context.lookup k).map (k, ·)).map Prod.fst).Sublist keys := by
  induction keys with
  | nil => exact .slnil
  | cons key keys ih =>
    cases hv : context.lookup key with
    | none => simpa [hv] using ih.cons key
    | some value => simpa [hv] using ih

/-- A context with keys of a whitelist only, in its order, is whitelisted already. -/
theorem whitelisted_of_keys {keys : List String} (hkeys : keys.Nodup)
    (h : (context.map Prod.fst).Sublist keys) :
    (keys.filterMap fun k ↦ (context.lookup k).map (k, ·)) = context := by
  induction keys generalizing context with
  | nil => simpa using h
  | cons key keys ih =>
    obtain ⟨hfresh, htail⟩ := List.nodup_cons.mp hkeys
    rcases List.sublist_cons_iff.mp h with hsub | ⟨rest, heq, hsub⟩
    · have hnone : context.lookup key = none := by
        rw [List.lookup_eq_none_iff]
        intro p hp
        rw [bne_iff_ne]
        rintro rfl
        exact hfresh (hsub.subset (List.mem_map_of_mem hp))
      rw [List.filterMap_cons, hnone]
      exact ih htail hsub
    · obtain ⟨⟨k, value⟩, context, rfl, hk, rfl⟩ := List.map_eq_cons_iff.mp heq
      obtain rfl : k = key := hk
      have hlookup : ∀ other ∈ keys,
          ((k, value) :: context).lookup other = context.lookup other := by
        intro other hother
        have hne : (other == k) = false := by
          rw [beq_eq_false_iff_ne]
          rintro rfl
          exact hfresh hother
        rw [List.lookup_cons, hne]
      rw [List.filterMap_cons, List.lookup_cons_self]
      simp only [Option.map_some]
      rw [List.filterMap_congr fun other hother ↦ by rw [hlookup other hother], ih htail hsub]

/-- A context with the keys of a whitelisted one is whitelisted. -/
theorem safeContext_of_keys {other : List (String × β)}
    (h : context.map Prod.fst = (safeContext other).map Prod.fst) :
    safeContext context = context := by
  apply whitelisted_of_keys (by decide)
  rw [h]
  exact keys_sublist safeContextKeys

end Contexts

section Functions

theorem encodeFields_eq (fields : List (String × PayloadValue)) :
    encodeFields fields = fields.map fun f ↦ (f.1, encode f.2) := by
  induction fields with
  | nil => rfl
  | cons f fields ih => rw [encodeFields, ih, List.map_cons]

theorem normalFields_eq (fields : List (String × PayloadValue)) :
    normalFields fields = fields.map fun f ↦ (f.1, f.2.normal) := by
  induction fields with
  | nil => rfl
  | cons f fields ih => rw [normalFields, ih, List.map_cons]

variable {platform : Platform} {env : Environment}

/-- A list comes back exactly when its items do. -/
theorem decodeItems_returns {items : List PayloadValue} :
    (∃ ws, decodeItems platform env (encodeItems items) = .ok ws ∧
      normalItems ws = normalItems items) ↔ ∀ v ∈ items, RoundTrips platform env v := by
  induction items with
  | nil => simp [encodeItems, decodeItems]
  | cons v items ih =>
    rw [List.forall_mem_cons, ← ih]
    simp only [encodeItems, decodeItems]
    constructor
    · rintro ⟨_, hws, heq⟩
      obtain ⟨w, hw, hws⟩ := bind_eq_ok.mp hws
      obtain ⟨ws, htail, hcons⟩ := bind_eq_ok.mp hws
      cases hcons
      rw [normalItems, normalItems, List.cons.injEq] at heq
      exact ⟨⟨w, hw, heq.1⟩, ws, htail, heq.2⟩
    · rintro ⟨⟨w, hw, heq⟩, ws, hws, heqs⟩
      exact ⟨w :: ws, by rw [hw, hws]; rfl, by rw [normalItems, normalItems, heq, heqs]⟩

/-- A dictionary comes back exactly when its values do. -/
theorem decodeFields_returns {fields : List (String × PayloadValue)} :
    (∃ ws, decodeFields platform env (encodeFields fields) = .ok ws ∧
      normalFields ws = normalFields fields) ↔ ∀ f ∈ fields, RoundTrips platform env f.2 := by
  induction fields with
  | nil => simp [encodeFields, decodeFields]
  | cons f fields ih =>
    obtain ⟨key, v⟩ := f
    rw [List.forall_mem_cons, ← ih]
    simp only [encodeFields, decodeFields]
    constructor
    · rintro ⟨_, hws, heq⟩
      obtain ⟨w, hw, hws⟩ := bind_eq_ok.mp hws
      obtain ⟨ws, htail, hcons⟩ := bind_eq_ok.mp hws
      cases hcons
      rw [normalFields, normalFields, List.cons.injEq, Prod.mk.injEq] at heq
      exact ⟨⟨w, hw, heq.1.2⟩, ws, htail, heq.2⟩
    · rintro ⟨⟨w, hw, heq⟩, ws, hws, heqs⟩
      exact ⟨(key, w) :: ws, by rw [hw, hws]; rfl, by rw [normalFields, normalFields, heq, heqs]⟩

/-- The tag of a dictionary is a plain string. -/
theorem typeTag_of_normal {fields ws : List (String × PayloadValue)}
    (h : normalFields ws = normalFields fields) : typeTag ws = typeTag fields := by
  have hnormal (fields : List (String × PayloadValue)) :
      typeTag (normalFields fields) = typeTag fields := by
    rw [normalFields_eq, typeTag, typeTag, JobDecoder.get, JobDecoder.get, lookup_map_values]
    cases fields.lookup "__type__" with
    | none => rfl
    | some v => cases v <;> rfl
  rw [← hnormal ws, h, hnormal]

/-- A tagged recordset is not decoded into a dictionary. -/
theorem recordset_ne_dict {obj fields : List (String × PayloadValue)} :
    JobDecoder.recordset platform env obj ≠ .ok (.dict fields) := by
  intro h
  obtain ⟨ids, _, h⟩ := bind_eq_ok.mp h
  obtain ⟨model, _, h⟩ := bind_eq_ok.mp h
  obtain ⟨env, _, h⟩ := bind_eq_ok.mp h
  dsimp only at h
  split at h <;> cases h

/-- The hook leaves alone exactly the dictionaries without a tag. -/
theorem objectHook_eq_dict {obj fields : List (String × PayloadValue)} :
    objectHook platform env obj = .ok (.dict fields) ↔
      fields = obj ∧ ∀ tag ∈ reservedTags, typeTag obj ≠ some tag := by
  have hmap {α : Type} (x : Except DecodeError α) {f : α → PayloadValue}
      (hf : ∀ a, f a ≠ .dict fields) : x.map f ≠ .ok (.dict fields) := by
    cases x with
    | error e => exact nofun
    | ok a => exact fun h ↦ hf a (Except.ok.inj h)
  simp only [reservedTags, List.forall_mem_cons, objectHook]
  split_ifs with hrecords hdatetime hdate
  · simp [hrecords, recordset_ne_dict]
  · simp [hdatetime, hmap]
  · simp [hdate, hmap]
  · simp [hrecords, hdatetime, hdate, eq_comm]

/-- Only a dictionary looks like a dictionary. -/
theorem eq_dict_of_normal {w : PayloadValue} {fields : List (String × PayloadValue)}
    (h : w.normal = .dict fields) : ∃ ws, w = .dict ws ∧ normalFields ws = fields := by
  cases w <;> simp [PayloadValue.normal] at h ⊢
  exact h

/-- A dictionary of a payload comes back exactly when its values do and it has no tag. -/
theorem roundTrips_dict {fields : List (String × PayloadValue)} :
    RoundTrips platform env (.dict fields) ↔
      (∀ tag ∈ reservedTags, typeTag fields ≠ some tag) ∧
        ∀ f ∈ fields, RoundTrips platform env f.2 := by
  rw [← decodeFields_returns]
  unfold RoundTrips
  simp only [encode, decode, PayloadValue.normal]
  constructor
  · rintro ⟨w, hw, heq⟩
    obtain ⟨ws, hws, hhook⟩ := bind_eq_ok.mp hw
    obtain ⟨_, rfl, hnormal⟩ := eq_dict_of_normal heq
    obtain ⟨rfl, htags⟩ := objectHook_eq_dict.mp hhook
    rw [typeTag_of_normal hnormal] at htags
    exact ⟨htags, _, hws, hnormal⟩
  · rintro ⟨htags, ws, hws, hnormal⟩
    rw [← typeTag_of_normal hnormal] at htags
    refine ⟨.dict ws, bind_eq_ok.mpr ⟨ws, hws, objectHook_eq_dict.mpr ⟨rfl, htags⟩⟩, ?_⟩
    rw [PayloadValue.normal, hnormal]

/-- A list of a payload comes back exactly when its items do. -/
theorem roundTrips_list {items : List PayloadValue} :
    RoundTrips platform env (.list items) ↔ ∀ v ∈ items, RoundTrips platform env v := by
  rw [← decodeItems_returns]
  unfold RoundTrips
  simp only [encode, decode, PayloadValue.normal]
  constructor
  · rintro ⟨w, hw, heq⟩
    cases hws : decodeItems platform env (encodeItems items) with
    | error e => rw [hws] at hw; cases hw
    | ok ws =>
      rw [hws] at hw
      cases hw
      exact ⟨ws, rfl, by simpa [PayloadValue.normal] using heq⟩
  · rintro ⟨ws, hws, hnormal⟩
    exact ⟨.list ws, by rw [hws]; rfl, by rw [PayloadValue.normal, hnormal]⟩

/-- The hook sees a tagged string as it was written. -/
theorem decode_tagged (tag value : String) :
    decode platform env (.dict [("__type__", .str tag), ("value", .str value)]) =
      objectHook platform env [("__type__", .str tag), ("value", .str value)] := rfl

/-- Dates come back. -/
theorem roundTrips_date (d : Date) : RoundTrips platform env (.date d) := by
  have hdate := Date.fromisoformat_isoformat platform.otherDate d
  refine ⟨.date d, ?_, rfl⟩
  rw [encode, decode_tagged]
  simp [objectHook, typeTag, JobDecoder.get, isoValue, hdate, List.lookup_cons, Except.map]

theorem roundTrips_datetime (d : DateTime) : RoundTrips platform env (.datetime d) := by
  have hdatetime := DateTime.fromisoformat_isoformat platform.otherDateTime d
  refine ⟨.datetime d, ?_, rfl⟩
  rw [encode, decode_tagged]
  simp [objectHook, typeTag, JobDecoder.get, isoValue, hdatetime, List.lookup_cons, Except.map]

/-- A dictionary keeps its keys. -/
theorem keys_of_decodeFields {fields : List (String × Json)}
    {ws : List (String × PayloadValue)} (h : decodeFields platform env fields = .ok ws) :
    ws.map Prod.fst = fields.map Prod.fst := by
  induction fields generalizing ws with
  | nil => cases h; rfl
  | cons f fields ih =>
    obtain ⟨w, _, h⟩ := bind_eq_ok.mp h
    obtain ⟨ws, htail, h⟩ := bind_eq_ok.mp h
    cases h
    rw [List.map_cons, List.map_cons, ih htail]

theorem decodeItems_ids (ids : List Int) :
    decodeItems platform env (ids.map .int) = .ok (ids.map .int) := by
  induction ids with
  | nil => rfl
  | cons id ids ih => rw [List.map_cons, decodeItems, ih]; rfl

theorem recordIds_ids (ids : List Int) : recordIds (.list (ids.map .int)) = .ok ids := by
  unfold recordIds
  induction ids with
  | nil => rfl
  | cons id ids ih =>
    simp only [List.map_cons, List.mapM_cons, ih]
    rfl

/-- The recordset of an encoded one, whose context comes from the decoder if it is empty. -/
theorem recordset_encoded (hplatform : platform.Documented) {model : String} {ids : List Int}
    {access : Access} (hmodel : platform.hasModel model = true)
    (hids : ∀ id ∈ ids, platform.recordExists model id = true)
    (context : List (String × PayloadValue)) :
    JobDecoder.recordset platform env [("__type__", .str "odoo_recordset"),
      ("model", .str model), ("ids", .list (ids.map .int)), ("uid", .int access.uid),
      ("su", .bool access.su), ("context", .dict context)] =
      .ok (.recordset model ids access (if context = [] then env.context else context)) := by
  have hmissing : (ids.filter fun id ↦ !platform.recordExists model id) = [] := by
    simpa using hids
  have huser := hplatform.withUser access.uid env
  have henv (context : List (String × PayloadValue)) :
      (if access.su = true then platform.asSudo ⟨Access.user access.uid, context⟩
        else ⟨Access.user access.uid, context⟩) = (⟨access, context⟩ : Environment) := by
    obtain ⟨uid, su, hsuper⟩ := access
    rw [hplatform.asSudo]
    cases su with
    | true => rfl
    | false =>
      have hne : uid ≠ superuserId := fun heq ↦ Bool.false_ne_true (hsuper heq)
      simp [Access.user, hne]
  cases context with
  | nil =>
    simp [JobDecoder.recordset, JobDecoder.get, List.lookup_cons, recordIds_ids, modelName,
      hmodel, JobDecoder.withUser, huser, JobDecoder.withContext, PayloadValue.truthy, henv,
      hmissing, bind, Except.bind]
  | cons f context =>
    simp [JobDecoder.recordset, JobDecoder.get, List.lookup_cons, recordIds_ids, modelName,
      hmodel, JobDecoder.withUser, huser, JobDecoder.withContext, hplatform.withContext,
      PayloadValue.truthy, henv, hmissing, bind, Except.bind]

/-- The context of an encoded recordset. -/
theorem decode_context {context : List (String × PayloadValue)} {c : PayloadValue} :
    decode platform env (.dict (encodeFields (safeContext context))) = .ok c ↔
      ∃ ws, decodeFields platform env (encodeFields (safeContext context)) = .ok ws ∧
        c = .dict ws := by
  have hhook {ws : List (String × PayloadValue)}
      (h : decodeFields platform env (encodeFields (safeContext context)) = .ok ws) :
      objectHook platform env ws = .ok (.dict ws) := by
    have hkeys := keys_of_decodeFields h
    rw [encodeFields_eq, List.map_map] at hkeys
    have hnone : ws.lookup "__type__" = none := by
      rw [List.lookup_eq_none_iff]
      intro p hp
      rw [bne_iff_ne]
      intro heq
      have hmem : p.1 ∈ ws.map Prod.fst := List.mem_map_of_mem hp
      rw [hkeys] at hmem
      obtain ⟨f, hf, hfst⟩ := List.mem_map.mp hmem
      have hsafe := key_of_mem_safeContext hf
      rw [show f.1 = p.1 from hfst, ← heq] at hsafe
      exact absurd hsafe (by decide)
    rw [objectHook_eq_dict]
    simp [typeTag, JobDecoder.get, hnone]
  constructor
  · intro h
    obtain ⟨ws, hws, h⟩ := bind_eq_ok.mp h
    rw [hhook hws] at h
    cases h
    exact ⟨ws, hws, rfl⟩
  · rintro ⟨ws, hws, rfl⟩
    exact bind_eq_ok.mpr ⟨ws, hws, hhook hws⟩

/-- A recordset whose records exist is decoded with its whitelisted context, or with that of the
environment when this is empty. -/
theorem decode_recordset (hplatform : platform.Documented) {model : String}
    {ids : List Int} {access : Access} {context : List (String × PayloadValue)}
    (hmodel : platform.hasModel model = true)
    (hids : ∀ id ∈ ids, platform.recordExists model id = true) {w : PayloadValue} :
    decode platform env (encode (.recordset model ids access context)) = .ok w ↔
      ∃ ws, decodeFields platform env (encodeFields (safeContext context)) = .ok ws ∧
        w = .recordset model ids access (if ws = [] then env.context else ws) := by
  have hencoded : safeContext (encodeFields context) = encodeFields (safeContext context) := by
    rw [encodeFields_eq, encodeFields_eq, safeContext_map]
  have hlist : decode platform env (.list (ids.map .int)) = .ok (.list (ids.map .int)) := by
    rw [decode, decodeItems_ids]
    rfl
  have hfields (c : Json) : decodeFields platform env [("__type__", .str "odoo_recordset"),
      ("model", .str model), ("ids", .list (ids.map .int)), ("uid", .int access.uid),
      ("su", .bool access.su), ("context", c)] = (decode platform env c).map fun context ↦
        [("__type__", .str "odoo_recordset"), ("model", .str model),
          ("ids", .list (ids.map .int)), ("uid", .int access.uid), ("su", .bool access.su),
          ("context", context)] := by
    simp only [decodeFields, hlist]
    cases decode platform env c <;> rfl
  have hhook (ws : List (String × PayloadValue)) :
      objectHook platform env [("__type__", .str "odoo_recordset"), ("model", .str model),
        ("ids", .list (ids.map .int)), ("uid", .int access.uid), ("su", .bool access.su),
        ("context", .dict ws)] =
        .ok (.recordset model ids access (if ws = [] then env.context else ws)) := by
    rw [objectHook, if_pos (by simp [typeTag, JobDecoder.get]),
      recordset_encoded hplatform hmodel hids]
  rw [encode, decode, hfields, hencoded]
  constructor
  · intro h
    cases hc : decode platform env (.dict (encodeFields (safeContext context))) with
    | error e => rw [hc] at h; cases h
    | ok c =>
      obtain ⟨ws, hws, rfl⟩ := decode_context.mp hc
      rw [hc] at h
      exact ⟨ws, hws, (Except.ok.inj ((hhook ws).symm.trans h)).symm⟩
  · rintro ⟨ws, hws, rfl⟩
    rw [decode_context.mpr ⟨ws, hws, rfl⟩]
    exact hhook ws

/-- A recordset whose records exist comes back exactly when its whitelisted context does, and
an empty one is decoded in an environment whose whitelisted context is empty. -/
theorem roundTrips_recordset (hplatform : platform.Documented) {model : String}
    {ids : List Int} {access : Access} {context : List (String × PayloadValue)}
    (hmodel : platform.hasModel model = true)
    (hids : ∀ id ∈ ids, platform.recordExists model id = true) :
    RoundTrips platform env (.recordset model ids access context) ↔
      (safeContext context = [] → safeContext env.context = []) ∧
        ∀ f ∈ safeContext context, RoundTrips platform env f.2 := by
  have hnormal (context : List (String × PayloadValue)) :
      safeContext (normalFields context) = normalFields (safeContext context) := by
    rw [normalFields_eq, normalFields_eq, safeContext_map]
  have hkeys {ws : List (String × PayloadValue)}
      (hws : decodeFields platform env (encodeFields (safeContext context)) = .ok ws) :
      ws.map Prod.fst = (safeContext context).map Prod.fst := by
    rw [keys_of_decodeFields hws, encodeFields_eq, List.map_map]
    rfl
  have hnil (fields : List (String × PayloadValue)) : normalFields fields = [] ↔ fields = [] := by
    rw [normalFields_eq, List.map_eq_nil_iff]
  rw [← decodeFields_returns]
  unfold RoundTrips
  simp only [decode_recordset hplatform hmodel hids]
  constructor
  · rintro ⟨_, ⟨ws, hws, rfl⟩, heq⟩
    simp only [PayloadValue.normal, hnormal, PayloadValue.recordset.injEq, true_and] at heq
    by_cases hempty : ws = []
    · subst hempty
      have hcontext : safeContext context = [] := List.map_eq_nil_iff.mp (hkeys hws).symm
      rw [if_pos rfl, hcontext] at heq
      exact ⟨fun _ ↦ (hnil _).mp heq, [], hws, by rw [hcontext]⟩
    · rw [if_neg hempty, safeContext_of_keys (hkeys hws)] at heq
      refine ⟨fun hcontext ↦ ?_, ws, hws, heq⟩
      rw [hcontext] at heq
      exact absurd ((hnil ws).mp heq) hempty
  · rintro ⟨hempty, ws, hws, heq⟩
    refine ⟨_, ⟨ws, hws, rfl⟩, ?_⟩
    simp only [PayloadValue.normal, hnormal]
    split
    · next hnone =>
      subst hnone
      have hcontext : safeContext context = [] := List.map_eq_nil_iff.mp (hkeys hws).symm
      rw [hempty hcontext, hcontext]
    · rw [safeContext_of_keys (hkeys hws), heq]

end Functions

section Parts

variable {u : PayloadValue}

theorem part_list {items : List PayloadValue} :
    u.Part (.list items) ↔ u = .list items ∨ ∃ w ∈ items, u.Part w := by
  constructor
  · rintro (_ | ⟨hw, h⟩ | _ | _)
    · exact .inl rfl
    · exact .inr ⟨_, hw, h⟩
  · rintro (rfl | ⟨w, hw, h⟩)
    · exact .self
    · exact .item hw h

theorem part_dict {fields : List (String × PayloadValue)} :
    u.Part (.dict fields) ↔ u = .dict fields ∨ ∃ f ∈ fields, u.Part f.2 := by
  constructor
  · rintro (_ | _ | ⟨hf, h⟩ | _)
    · exact .inl rfl
    · exact .inr ⟨_, hf, h⟩
  · rintro (rfl | ⟨f, hf, h⟩)
    · exact .self
    · exact .field hf h

theorem part_recordset {model : String} {ids : List Int} {access : Access}
    {context : List (String × PayloadValue)} :
    u.Part (.recordset model ids access context) ↔
      u = .recordset model ids access context ∨ ∃ f ∈ safeContext context, u.Part f.2 := by
  constructor
  · rintro (_ | _ | _ | ⟨hf, h⟩)
    · exact .inl rfl
    · exact .inr ⟨_, hf, h⟩
  · rintro (rfl | ⟨f, hf, h⟩)
    · exact .self
    · exact .context hf h

end Parts

/-- A payload whose records exist comes back exactly when none of its dictionaries carries a
tag of the encoding, and none of its recordsets has an empty whitelisted context where the
decoder's is not. -/
theorem roundTrips_iff {platform : Platform} {env : Environment} {v : PayloadValue}
    (hplatform : platform.Documented) (hexist : ∀ u : PayloadValue, u.Part v →
      RecordsExist platform u) :
    RoundTrips platform env v ↔ ∀ u : PayloadValue, u.Part v → Survives env u := by
  have hplain {v : PayloadValue} (hround : RoundTrips platform env v)
      (hpart : ∀ u : PayloadValue, u.Part v → u = v) (hv : Survives env v) :
      RoundTrips platform env v ↔ ∀ u : PayloadValue, u.Part v → Survives env u :=
    iff_of_true hround fun u hu ↦ hpart u hu ▸ hv
  induction v using PayloadValue.tree_induction with
  | null | bool b | int i | str s =>
    exact hplain ⟨_, rfl, rfl⟩ (by rintro _ ⟨⟩; rfl) trivial
  | date d => exact hplain (roundTrips_date d) (by rintro _ ⟨⟩; rfl) trivial
  | datetime d => exact hplain (roundTrips_datetime d) (by rintro _ ⟨⟩; rfl) trivial
  | list items ih =>
    have hitems (w : PayloadValue) (hw : w ∈ items) := ih w hw fun u hu ↦ hexist u (.item hw hu)
    rw [roundTrips_list]
    constructor
    · intro h u hu
      rcases part_list.mp hu with rfl | ⟨w, hw, hu⟩
      · trivial
      · exact (hitems w hw).mp (h w hw) u hu
    · exact fun h w hw ↦ (hitems w hw).mpr fun u hu ↦ h u (.item hw hu)
  | dict fields ih =>
    have hfields (f : String × PayloadValue) (hf : f ∈ fields) :=
      ih f hf fun u hu ↦ hexist u (.field hf hu)
    rw [roundTrips_dict]
    constructor
    · rintro ⟨htags, h⟩ u hu
      rcases part_dict.mp hu with rfl | ⟨f, hf, hu⟩
      · exact htags
      · exact (hfields f hf).mp (h f hf) u hu
    · exact fun h ↦ ⟨h _ .self, fun f hf ↦ (hfields f hf).mpr fun u hu ↦ h u (.field hf hu)⟩
  | recordset model ids access context ih =>
    have hcontext (f : String × PayloadValue) (hf : f ∈ safeContext context) :=
      ih f (mem_of_mem_safeContext hf) fun u hu ↦ hexist u (.context hf hu)
    obtain ⟨hmodel, hids⟩ := hexist _ .self
    rw [roundTrips_recordset hplatform hmodel hids]
    constructor
    · rintro ⟨hempty, h⟩ u hu
      rcases part_recordset.mp hu with rfl | ⟨f, hf, hu⟩
      · exact hempty
      · exact (hcontext f hf).mp (h f hf) u hu
    · exact fun h ↦
        ⟨h _ .self, fun f hf ↦ (hcontext f hf).mpr fun u hu ↦ h u (.context hf hu)⟩

/-- A database with one partner, in which every user may be assumed. -/
def onePartner : Platform where
  hasModel model := model == "res.partner"
  recordExists model id := model == "res.partner" && id == 1
  withUser
    | .int uid, env => .ok { env with access := Access.user uid }
    | _, _ => .error .odoo
  withContext context env := { env with context }
  asSudo env := { env with access := env.access.asSudo }
  otherDate _ := none
  otherDateTime _ := none

theorem onePartner_documented : onePartner.Documented :=
  ⟨fun _ _ ↦ rfl, fun _ _ ↦ rfl, fun _ ↦ rfl⟩

/-- A partner read by a user with an Italian context, and a date. -/
def ownerAndDate : PayloadValue :=
  .dict [("owner", .recordset "res.partner" [1] (Access.user 7) [("lang", .str "it_IT")]),
    ("dates", .list [.date ⟨2026, 1, 2, by decide, by decide, by decide⟩])]

/-- The arguments of a job come back. -/
theorem roundTrips_iff_ownerAndDate :
    RoundTrips onePartner ⟨Access.user 1, [("tz", .str "UTC")]⟩ ownerAndDate := by
  have hsafe : safeContext [("lang", PayloadValue.str "it_IT")] = [("lang", .str "it_IT")] := rfl
  have hparts (u : PayloadValue) (hu : u.Part ownerAndDate) : RecordsExist onePartner u ∧
      Survives ⟨Access.user 1, [("tz", .str "UTC")]⟩ u := by
    rcases part_dict.mp hu with rfl | ⟨f, hf, hu⟩
    · exact ⟨trivial, fun tag _ ↦ nofun⟩
    rcases List.mem_pair.mp hf with rfl | rfl
    · rcases part_recordset.mp hu with rfl | ⟨f, hf, hu⟩
      · refine ⟨⟨rfl, by decide⟩, fun hempty ↦ ?_⟩
        rw [hsafe] at hempty
        cases hempty
      · rw [hsafe] at hf
        rw [List.mem_singleton.mp hf] at hu
        cases hu
        exact ⟨trivial, trivial⟩
    · rcases part_list.mp hu with rfl | ⟨w, hw, hu⟩
      · exact ⟨trivial, trivial⟩
      · rw [List.mem_singleton.mp hw] at hu
        cases hu
        exact ⟨trivial, trivial⟩
  exact (roundTrips_iff onePartner_documented fun u hu ↦ (hparts u hu).1).mpr
    fun u hu ↦ (hparts u hu).2

/-- A dictionary of the caller is decoded into a date. -/
theorem not_roundTrips_taggedDict : ¬ ∀ (platform : Platform) (env : Environment)
    (v : PayloadValue), platform.Documented →
      (∀ u : PayloadValue, u.Part v → RecordsExist platform u) → RoundTrips platform env v := by
  intro hall
  have hround := hall onePartner ⟨Access.user 1, []⟩
    (.dict [("__type__", .str "date_isoformat"), ("value", .str "2026-01-02")])
    onePartner_documented fun u hu ↦ by
      rcases part_dict.mp hu with rfl | ⟨f, hf, hu⟩
      · trivial
      simp only [List.mem_cons, List.not_mem_nil, or_false] at hf
      rcases hf with rfl | rfl <;> cases hu <;> trivial
  have htags := (roundTrips_dict.mp hround).1 "date_isoformat" (by decide)
  exact htags rfl

end JobWorker
