import JobWorker.Base.IsoFormat
import JobWorker.Models.Job
import Mathlib.Data.List.Basic

/-!
# Job payloads as JSON

`JobEncoder` and `JobDecoder` of `job_worker/models/job_serialization.py` on trees of Python
values. The text that `json` writes and reads is left out: a tree of plain values stands for
it. Odoo's environments and Python's further ISO 8601 forms are a parameter of the decoder.
-/

namespace JobWorker

open IsoFormat

/-- `_SAFE_CONTEXT_KEYS`; `models/job_serialization.py:6–13`. -/
def safeContextKeys : List String :=
  ["lang", "tz", "active_test", "allowed_company_ids", "company_id", "force_company"]

/-- The whitelisted entries of a context; `models/job_serialization.py:23–27`. -/
def safeContext {α : Type} (context : List (String × α)) : List (String × α) :=
  safeContextKeys.filterMap fun key ↦ (context.lookup key).map (key, ·)

/-- `odoo.SUPERUSER_ID`. -/
def superuserId : Int := 1

/-- The user of an environment: the superuser is always in superuser mode. -/
structure Access where
  uid : Int
  su : Bool
  superuser : uid = superuserId → su = true
  deriving DecidableEq, Repr

/-- A user in superuser mode. -/
def Access.asSudo (a : Access) : Access := ⟨a.uid, true, fun _ ↦ rfl⟩

/-- A user that is not in superuser mode, unless it is the superuser. -/
def Access.user (uid : Int) : Access := ⟨uid, uid == superuserId, by simp⟩

/-- What `json` writes and reads. -/
inductive Json
  | null
  | bool (b : Bool)
  | int (i : Int)
  | str (s : String)
  | list (items : List Json)
  | dict (fields : List (String × Json))

/-- The values of a payload. A recordset comes with the context of its environment. -/
inductive PayloadValue
  | null
  | bool (b : Bool)
  | int (i : Int)
  | str (s : String)
  | list (items : List PayloadValue)
  | dict (fields : List (String × PayloadValue))
  | date (d : Date)
  | datetime (d : DateTime)
  | recordset (model : String) (ids : List Int) (access : Access)
      (context : List (String × PayloadValue))

/-- The user and the context of an `odoo.api.Environment`. -/
structure Environment where
  access : Access
  context : List (String × PayloadValue) := []

namespace JobEncoder

mutual

/-- `json.dumps(obj, cls=JobEncoder)`; `models/job_serialization.py:21–40`. -/
def encode : PayloadValue → Json
  | .null => .null
  | .bool b => .bool b
  | .int i => .int i
  | .str s => .str s
  | .list items => .list (encodeItems items)
  | .dict fields => .dict (encodeFields fields)
  | .recordset model ids access context =>
    .dict [("__type__", .str "odoo_recordset"), ("model", .str model),
      ("ids", .list (ids.map .int)), ("uid", .int access.uid), ("su", .bool access.su),
      ("context", .dict (safeContext (encodeFields context)))]
  | .datetime d =>
    .dict [("__type__", .str "datetime_isoformat"), ("value", .str d.isoformat)]
  | .date d => .dict [("__type__", .str "date_isoformat"), ("value", .str d.isoformat)]

/-- The items of a list. -/
def encodeItems : List PayloadValue → List Json
  | [] => []
  | item :: items => encode item :: encodeItems items

/-- The values of a dictionary. -/
def encodeFields : List (String × PayloadValue) → List (String × Json)
  | [] => []
  | (key, value) :: fields => (key, encode value) :: encodeFields fields

end

end JobEncoder

/-- What a decoder raises. -/
inductive DecodeError
  | modelNotFound (model : PayloadValue)
  | recordsNotFound (missing : List Int) (model : String)
  | invalidIds
  | keyError (key : String)
  | typeError
  | invalidIsoformat (s : String)
  | odoo

/-- What the decoder uses of Odoo and of Python: the registry, the records of the database,
the environments, and the ISO 8601 forms that `isoformat` does not write. -/
structure Platform where
  hasModel : String → Bool
  recordExists : String → Int → Bool
  withUser : PayloadValue → Environment → Except DecodeError Environment
  withContext : List (String × PayloadValue) → Environment → Environment
  asSudo : Environment → Environment
  otherDate : String → Option Date
  otherDateTime : String → Option DateTime

/-- `with_user`, `with_context` and `sudo` as documented: a user comes without superuser
mode, a given context replaces the one there was, and `sudo` keeps the user. -/
structure Platform.Documented (platform : Platform) : Prop where
  withUser : ∀ uid env,
    platform.withUser (.int uid) env = .ok { env with access := Access.user uid }
  withContext : ∀ context env, platform.withContext context env = { env with context }
  asSudo : ∀ env, platform.asSudo env = { env with access := env.access.asSudo }

/-- `bool(value)`. -/
def PayloadValue.truthy : PayloadValue → Bool
  | .null => false
  | .bool b => b
  | .int i => i ≠ 0
  | .str s => s ≠ ""
  | .list items => !items.isEmpty
  | .dict fields => !fields.isEmpty
  | .date _ | .datetime _ => true
  | .recordset _ ids _ _ => !ids.isEmpty

namespace JobDecoder

/-- `obj.get(key)`. -/
def get (obj : List (String × PayloadValue)) (key : String) : PayloadValue :=
  (obj.lookup key).getD .null

/-- `list(obj.get("ids") or [])`. A list of other values than integers is accepted here, but
not by the query of `exists`. -/
def recordIds : PayloadValue → Except DecodeError (List Int)
  | .list items =>
    items.mapM fun
      | .int id => .ok id
      | _ => .error .invalidIds
  | value => if value.truthy then .error .invalidIds else .ok []

/-- The model of a tagged dictionary; `models/job_serialization.py:54–57`. -/
def modelName (platform : Platform) (obj : List (String × PayloadValue)) :
    Except DecodeError String :=
  match get obj "model" with
  | .str name => if platform.hasModel name then .ok name else .error (.modelNotFound (.str name))
  | value => .error (.modelNotFound value)

/-- Its user, if it names one; `models/job_serialization.py:59,63–64`. -/
def withUser (platform : Platform) (env : Environment) (obj : List (String × PayloadValue)) :
    Except DecodeError Environment :=
  match get obj "uid" with
  | .null => .ok env
  | uid => platform.withUser uid env

/-- Its context, if it has one; `models/job_serialization.py:61,65–66`. -/
def withContext (platform : Platform) (env : Environment) (obj : List (String × PayloadValue)) :
    Environment :=
  match get obj "context" with
  | .dict context => if context.isEmpty then env else platform.withContext context env
  | _ => env

/-- The recordset of a tagged dictionary; `models/job_serialization.py:53–80`. -/
def recordset (platform : Platform) (env : Environment) (obj : List (String × PayloadValue)) :
    Except DecodeError PayloadValue := do
  let ids ← recordIds (get obj "ids")
  let model ← modelName platform obj
  let env ← withUser platform env obj
  let env := withContext platform env obj
  let env := if (get obj "su").truthy then platform.asSudo env else env
  let missing := ids.filter fun id ↦ !platform.recordExists model id
  if missing ≠ [] then .error (.recordsNotFound missing model)
  else .ok (.recordset model ids env.access env.context)

/-- `fromisoformat(obj["value"])`. -/
def isoValue {α : Type} (fromisoformat : String → Option α) (obj : List (String × PayloadValue)) :
    Except DecodeError α :=
  match obj.lookup "value" with
  | none => .error (.keyError "value")
  | some (.str s) =>
    match fromisoformat s with
    | some a => .ok a
    | none => .error (.invalidIsoformat s)
  | some _ => .error .typeError

/-- The string under `"__type__"`, if it is one. -/
def typeTag (obj : List (String × PayloadValue)) : Option String :=
  match get obj "__type__" with
  | .str tag => some tag
  | _ => none

/-- `object_hook`; `models/job_serialization.py:52–85`. -/
def objectHook (platform : Platform) (env : Environment) (obj : List (String × PayloadValue)) :
    Except DecodeError PayloadValue :=
  if typeTag obj = some "odoo_recordset" then recordset platform env obj
  else if typeTag obj = some "datetime_isoformat" then
    (isoValue (DateTime.fromisoformat platform.otherDateTime) obj).map .datetime
  else if typeTag obj = some "date_isoformat" then
    (isoValue (Date.fromisoformat platform.otherDate) obj).map .date
  else .ok (.dict obj)

mutual

/-- `json.loads(s, cls=JobDecoder, env=env)`: every dictionary goes through the hook, the
innermost first; `models/job_serialization.py:43–50`. -/
def decode (platform : Platform) (env : Environment) : Json → Except DecodeError PayloadValue
  | .null => .ok .null
  | .bool b => .ok (.bool b)
  | .int i => .ok (.int i)
  | .str s => .ok (.str s)
  | .list items => (decodeItems platform env items).map .list
  | .dict fields => (decodeFields platform env fields).bind (objectHook platform env)

/-- The items of a list. -/
def decodeItems (platform : Platform) (env : Environment) :
    List Json → Except DecodeError (List PayloadValue)
  | [] => .ok []
  | item :: items => do
    let value ← decode platform env item
    let values ← decodeItems platform env items
    return value :: values

/-- The values of a dictionary. -/
def decodeFields (platform : Platform) (env : Environment) :
    List (String × Json) → Except DecodeError (List (String × PayloadValue))
  | [] => .ok []
  | (key, item) :: fields => do
    let value ← decode platform env item
    let values ← decodeFields platform env fields
    return (key, value) :: values

end

end JobDecoder

end JobWorker
