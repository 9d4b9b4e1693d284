import JobWorker.Base.Slices
import JobWorker.Delay

/-!
# Splitting a delayable

`Delayable.split` cuts the recordset into chunks and gives each one to a new delayable with the
same method, arguments and properties (`job_worker/delay.py:167–197`). The new objects are put at
addresses where nothing is.
-/

namespace JobWorker

open Slices

/-- `[ids[i : i + size] for i in range(0, len(ids), size)]`; `delay.py:177`. -/
def splitChunks (ids : List Nat) (size : Int) : Except DelayError (List (List Nat)) :=
  if size = 0 then .error (.valueError "range() arg 3 must not be zero")
  else .ok (slices ids size)

/-- The call of a chunk: without a method there are no arguments either; `delay.py:180–193`. -/
def DelayableCall.ofChunk (call : DelayableCall) (chunkIds : List Nat) : DelayableCall :=
  if call.jobMethod.getD "" = "" then { modelName := call.modelName, recordIds := chunkIds }
  else { call with recordIds := chunkIds }

/-- The delayable of a chunk; `delay.py:180–194`. -/
def subDelayable (call : DelayableCall) (properties : DelayableProperties) (chunkIds : List Nat) :
    Scheduler where
  cls := .delayable (call.ofChunk chunkIds) properties none

/-- `DelayableChain(*sub_delayables)` or `DelayableGroup(*sub_delayables)`; `delay.py:195–197`. -/
def splitScheduler (chain : Bool) (subDelayables : List Ref) : Scheduler where
  cls := if chain then .chain subDelayables else .group subDelayables

/-- New objects from the address `fresh` on. -/
def allocate (heap : Ref → Scheduler) (fresh : Ref) (objects : List Scheduler) : Ref → Scheduler :=
  fun r ↦ if fresh ≤ r then (objects[r - fresh]?).getD (heap r) else heap r

namespace Delaying

/-- Object construction. -/
def new (fresh : Ref) (objects : List Scheduler) : Delaying Unit := fun st ↦
  pure ((), { st with heap := allocate st.heap fresh objects })

/-- `Delayable.split`; `delay.py:167–197`. -/
def split (self : Ref) (size : Int) (chain : Bool) (fresh : Ref) : Delaying Ref := do
  match (← read self).cls with
  | .delayable call properties _ =>
    match splitChunks call.recordIds size with
    | .error e => throw e
    | .ok chunks =>
      let subDelayables := List.range' (fresh + 1) chunks.length
      new fresh
        (splitScheduler chain subDelayables :: chunks.map (subDelayable call properties))
      return fresh
  | _ => throw .attributeError

end Delaying

end JobWorker
